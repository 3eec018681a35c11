import AdaptiveMqtt.Broker.Refill
import AdaptiveMqtt.Packet.PropertyList
import AdaptiveMqtt.Sub.Spec

/-!
# The bytes of a SUBSCRIBE

How `handle__subscribe` reads its packet, and what it accepts. A SUBSCRIBE is a message id that
is not zero, for MQTT 5 a property list, and one pair or more of a filter and an options byte
(`SubscribeBody`). `packet__read_string` returns `NULL` for a string of length zero, and the
check for an empty filter stands behind the test for `NULL`: such a string is passed over,
without an options byte, wherever a filter may stand.
-/

namespace AdaptiveMqtt.Broker

open Lib Topic AdaptiveMqtt.Sub Db
open Packet (packetReadUint16 packetReadString packetReadByte propertyReadAll uint16Bytes
  stringBytes propertiesBytes varintBytes Utf8 mosquittoPropertyCheckAll)

/-! ## Reading -/

/-- The filters of a packet as the loop of `handle__subscribe` reads them. A turn takes two
bytes at least, so `fuel` is the number of bytes. -/
def readFilters : Nat → Bytes → List SubscribeFilter
  | _, [] => []
  | 0, _ => []
  | fuel + 1, s =>
    match packetReadString s with
    | .error rc => [⟨.error rc, .error rc⟩]
    | .ok ([], rest) => ⟨.ok [], .error Rc.malformedPacket⟩ :: readFilters fuel rest
    | .ok (sub, rest) =>
      match packetReadByte rest with
      | .error rc => [⟨.ok sub, .error rc⟩]
      | .ok (options, rest) => ⟨.ok sub, .ok options⟩ :: readFilters fuel rest

/-- What `handle__subscribe` reads out of a packet for a client of this protocol. -/
def readSubscribeBody (protocol : Protocol) (body : Bytes) : SubscribePacket :=
  match packetReadUint16 body with
  | .error rc => ⟨0x82, .error rc, .ok [], []⟩
  | .ok (mid, rest) =>
    if protocol = .mqtt5 then
      match propertyReadAll Packet.Cmd.subscribe rest with
      | .error rc => ⟨0x82, .ok mid, .error rc, []⟩
      | .ok (properties, rest) => ⟨0x82, .ok mid, .ok properties, readFilters rest.length rest⟩
    else ⟨0x82, .ok mid, .ok [], readFilters rest.length rest⟩

/-! ## The grammar -/

/-- The options byte of a filter: a QoS, and for MQTT 5 a retain handling and no reserved bit. -/
def ValidOptions (protocol : Protocol) (options : UInt8) : Prop :=
  if protocol = .mqtt5 then
    options &&& 0x03 ≤ 2 ∧ options &&& 0x30 ≠ 0x30 ∧ options &&& 0xC0 = 0
  else options ≤ 2

instance (protocol : Protocol) (options : UInt8) : Decidable (ValidOptions protocol options) :=
  inferInstanceAs (Decidable (if protocol = .mqtt5 then
    options &&& 0x03 ≤ 2 ∧ options &&& 0x30 ≠ 0x30 ∧ options &&& 0xC0 = 0 else options ≤ 2))

/-- A filter and its options byte. -/
structure ValidPair (protocol : Protocol) (pair : Bytes × UInt8) : Prop where
  nonempty : pair.1 ≠ []
  length : pair.1.length ≤ 65535
  utf8 : Utf8 pair.1
  check : mosquittoSubTopicCheck pair.1 = Rc.success
  options : ValidOptions protocol pair.2

/-- The property list of a SUBSCRIBE. -/
structure ValidProperties (props : List Property) : Prop where
  readable : ∀ p ∈ props, p.Readable
  length : (propertiesBytes props).length < 2 ^ 28
  check : mosquittoPropertyCheckAll Packet.Cmd.subscribe props = Rc.success
  identifier : ⟨11, .varint 0⟩ ∉ props

def headBytes (protocol : Protocol) (mid : UInt16) (props : List Property) : Bytes :=
  uint16Bytes mid ++ if protocol = .mqtt5 then
    varintBytes (propertiesBytes props).length ++ propertiesBytes props else []

/-- A pair, or a string of length zero where a filter may stand. -/
abbrev Item := Option (Bytes × UInt8)

def Item.bytes : Item → Bytes
  | none => stringBytes []
  | some (sub, options) => stringBytes sub ++ [options]

/-- A message id, properties and items, one after the other with nothing left over. -/
structure SubscribeItems (protocol : Protocol) (mid : UInt16) (props : List Property)
    (items : List Item) (body : Bytes) : Prop where
  nonzero : mid ≠ 0
  properties : protocol = .mqtt5 → ValidProperties props
  pairs : ∀ pair, some pair ∈ items → ValidPair protocol pair
  bytes : body = headBytes protocol mid props ++ items.flatMap Item.bytes

/-- **The grammar of SUBSCRIBE**: the items are pairs, one or more. -/
def SubscribeBody (protocol : Protocol) (mid : UInt16) (pairs : List (Bytes × UInt8))
    (body : Bytes) : Prop :=
  pairs ≠ [] ∧ ∃ props, SubscribeItems protocol mid props (pairs.map some) body

/-- The body is one of pairs, with strings of length zero between them. -/
def Gapped (protocol : Protocol) (body : Bytes) : Prop :=
  ∃ mid props items, SubscribeItems protocol mid props items body ∧
    none ∈ items ∧ ∃ pair, some pair ∈ items

/-! ## What the loop reads -/

def Item.filter : Item → SubscribeFilter
  | none => ⟨.ok [], .error Rc.malformedPacket⟩
  | some (sub, options) => ⟨.ok sub, .ok options⟩

/-- A string that may stand in a packet. -/
def Item.Readable (item : Item) : Prop :=
  ∀ pair, item = some pair → pair.1 ≠ [] ∧ pair.1.length ≤ 65535 ∧ Utf8 pair.1

theorem readFilters_cons (fuel : Nat) {s : Bytes} (hs : s ≠ []) :
    readFilters (fuel + 1) s =
      match packetReadString s with
      | .error rc => [⟨.error rc, .error rc⟩]
      | .ok ([], rest) => ⟨.ok [], .error Rc.malformedPacket⟩ :: readFilters fuel rest
      | .ok (sub, rest) =>
        match packetReadByte rest with
        | .error rc => [⟨.ok sub, .error rc⟩]
        | .ok (options, rest) => ⟨.ok sub, .ok options⟩ :: readFilters fuel rest := by
  obtain ⟨b, s, rfl⟩ := List.exists_cons_of_ne_nil hs
  rfl

theorem length_itemBytes (item : Item) : 2 ≤ item.bytes.length := by
  cases item with
  | none => exact Nat.le_refl 2
  | some pair =>
    simp only [Item.bytes, List.length_append, Packet.length_stringBytes]
    omega

theorem readFilters_items {items : List Item} (h : ∀ item ∈ items, Item.Readable item) :
    ∀ {fuel : Nat}, (items.flatMap Item.bytes).length ≤ fuel →
      readFilters fuel (items.flatMap Item.bytes) = items.map Item.filter := by
  induction items with
  | nil =>
    intro fuel _
    cases fuel <;> rfl
  | cons item items ih =>
    intro fuel hfuel
    rw [List.forall_mem_cons] at h
    rw [List.flatMap_cons, List.length_append] at hfuel
    have htwo := length_itemBytes item
    obtain ⟨fuel, rfl⟩ : ∃ k, fuel = k + 1 := ⟨fuel - 1, by omega⟩
    have hne : item.bytes ++ items.flatMap Item.bytes ≠ [] := by
      intro hnil
      have := congrArg List.length hnil
      rw [List.length_append, List.length_nil] at this
      omega
    have hrest := @ih h.2 fuel (by omega)
    rw [List.flatMap_cons, readFilters_cons fuel hne, List.map_cons]
    cases item with
    | none =>
      have hread : packetReadString (Item.bytes none ++ items.flatMap Item.bytes) =
          .ok ([], items.flatMap Item.bytes) :=
        Packet.packetReadString_eq_ok.mpr ⟨⟨by simp, Packet.utf8_nil⟩, rfl⟩
      simp only [hread, hrest]
      rfl
    | some pair =>
      obtain ⟨sub, options⟩ := pair
      obtain ⟨hsub, hlen, hutf⟩ := h.1 _ rfl
      have hread : packetReadString (Item.bytes (some (sub, options)) ++ items.flatMap Item.bytes) =
          .ok (sub, options :: items.flatMap Item.bytes) :=
        Packet.packetReadString_eq_ok.mpr ⟨⟨hlen, hutf⟩, by simp [Item.bytes]⟩
      have hbyte : packetReadByte (options :: items.flatMap Item.bytes) =
          .ok (options, items.flatMap Item.bytes) := rfl
      simp only [hread, hbyte, hrest]
      rfl

/-- A filter with all that belongs to it. -/
def Whole (f : SubscribeFilter) : Prop := f.sub = .ok [] ∨ ∃ sub options, f = ⟨.ok sub, .ok options⟩

theorem items_of_whole {fuel : Nat} : ∀ {s : Bytes}, s.length ≤ fuel →
    (∀ f ∈ readFilters fuel s, Whole f) →
    ∃ items : List Item, s = items.flatMap Item.bytes ∧ ∀ item ∈ items, Item.Readable item := by
  induction fuel with
  | zero =>
    intro s hs _
    exact ⟨[], List.length_eq_zero_iff.mp (Nat.le_zero.mp hs), nofun⟩
  | succ fuel ih =>
    intro s hs hwhole
    by_cases hnil : s = []
    · exact ⟨[], hnil, nofun⟩
    rw [readFilters_cons fuel hnil] at hwhole
    cases hread : packetReadString s with
    | error rc =>
      rw [hread] at hwhole
      rcases hwhole _ List.mem_cons_self with h | ⟨_, _, h⟩ <;> cases h
    | ok r =>
      obtain ⟨sub, rest⟩ := r
      rw [hread] at hwhole
      obtain ⟨⟨hlen, hutf⟩, rfl⟩ := Packet.packetReadString_eq_ok.mp hread
      rw [List.length_append, Packet.length_stringBytes] at hs
      cases sub with
      | nil =>
        simp only at hwhole
        obtain ⟨items, rfl, hitems⟩ := ih (by omega) (List.forall_mem_cons.mp hwhole).2
        exact ⟨none :: items, rfl, List.forall_mem_cons.mpr ⟨nofun, hitems⟩⟩
      | cons b sub =>
        cases hbyte : packetReadByte rest with
        | error rc =>
          simp only [hbyte] at hwhole
          rcases hwhole _ List.mem_cons_self with h | ⟨_, _, h⟩ <;> cases h
        | ok r =>
          obtain ⟨options, rest'⟩ := r
          simp only [hbyte] at hwhole
          obtain rfl : rest = options :: rest' := Reader.item_eq_ok.mp hbyte
          obtain ⟨items, rfl, hitems⟩ := ih (by simp only [List.length_cons] at hs; omega)
            (List.forall_mem_cons.mp hwhole).2
          refine ⟨some (b :: sub, options) :: items, ?_, List.forall_mem_cons.mpr ⟨?_, hitems⟩⟩
          · simp [Item.bytes]
          · rintro pair hpair
            cases hpair
            exact ⟨by simp, hlen, hutf⟩

theorem Item.filter_injective : Function.Injective Item.filter := by
  rintro (_ | ⟨sub, options⟩) (_ | ⟨sub', options'⟩) h
  · rfl
  · cases h
  · cases h
  · cases h
    rfl

/-! ## The options byte -/

section Options

variable {ctx : Context} {options : UInt8}

/-- `handle__subscribe` takes an options byte as the protocol version allows. -/
theorem readOptions_eq_ok (hp : ctx.protocol = .mqtt311 ∨ ctx.protocol = .mqtt5) :
    (∃ r, readOptions ctx options = .ok r) ↔ ValidOptions ctx.protocol options := by
  have hmask : (options &&& 0xFC) &&& 0x30 = options &&& 0x30 := by
    rw [UInt8.and_assoc]
    rfl
  have hmask' : (options &&& 0xFC) &&& 0xC0 = options &&& 0xC0 := by
    rw [UInt8.and_assoc]
    rfl
  unfold readOptions ValidOptions
  rcases hp with hp | hp
  · by_cases hq : options > 2
    · simp [hp, hq, throw, throwThe, MonadExceptOf.throw, bind, Except.bind]
    · simp [hp, hq, pure, Except.pure]
      exact UInt8.not_lt.mp hq
  · rw [← UInt8.not_lt]
    by_cases hr : options &&& 0x30 = 0x30 ∨ options &&& 0xC0 ≠ 0
    · simp [hp, hmask, hmask', hr, throw, throwThe, MonadExceptOf.throw, bind, Except.bind]
      exact fun _ hhandling => hr.resolve_left hhandling
    · rw [not_or, not_not] at hr
      by_cases hq : options &&& 0x03 > 2
      · simp [hp, hmask, hmask', hr, hq, throw, throwThe, MonadExceptOf.throw, bind, Except.bind]
      · simp [hp, hmask, hmask', hr, hq, pure, Except.pure]

end Options

/-! ## The loop -/

theorem undisturbed_retainQueue (env : Env) (c : CtxId) (sub : Bytes) (subQos : Qos)
    (identifier : Nat) (b : State) :
    Undisturbed b (retainQueue env c sub subQos identifier b).2 :=
  keeps_retainQueue (P := Undisturbed b) (fun _ b' h => h.trans (undisturbed_setRetained _ _ b'))
    (fun _ _ b' h => h.trans (undisturbed_insert _ _ _ _ _ _ _ b')) sub subQos (.refl b)

section Loop

variable {env : Env} {c : CtxId} {ctx : Context} {identifier : Nat}

theorem undisturbed_subAdd (c : CtxId) (protocol : Protocol) (sub : Bytes) (qos : Qos)
    (identifier : Nat) (options : UInt8) (b : State) :
    Undisturbed b (b.subAdd c protocol sub qos identifier options).2 := ⟨fun _ => rfl, rfl⟩

theorem undisturbed_subscribeOne (f : SubscribeFilter) (b : State) :
    Undisturbed b (subscribeOne env c ctx identifier f b).2 := by
  unfold subscribeOne
  split
  · exact .refl b
  · exact .refl b
  · split
    · exact .refl b
    · split
      · exact .refl b
      · extract_lets sub rc2 r wanted identifier b'
        have hadd : Undisturbed b r.2 := undisturbed_subAdd _ _ _ _ _ _ b
        split
        · exact .refl b
        · split
          · exact .refl b
          · split
            · exact hadd
            · show Undisturbed b (if wanted then _ else _)
              split
              · exact hadd.trans (undisturbed_retainQueue _ _ _ _ _ _)
              · exact hadd

theorem undisturbed_subscribeLoop (filters : List SubscribeFilter) :
    ∀ (payload : Bytes) (b : State),
      Undisturbed b (subscribeLoop env c ctx identifier filters payload b).2 := by
  induction filters with
  | nil => exact fun _ => .refl
  | cons f filters ih =>
    intro payload b
    have hone := @undisturbed_subscribeOne env c ctx identifier f b
    unfold subscribeLoop
    split
    · rename_i heq
      rw [heq] at hone
      exact hone
    · rename_i heq
      rw [heq] at hone
      exact hone.trans (ih _ _)

/-- Neither the access control nor `sub__add` has an error for this filter. -/
structure NoError (env : Env) (c : CtxId) (ctx : Context) (sub : Bytes) : Prop where
  acl : ∀ qos, mosquittoAclCheck env ctx (ctx.mountPoint.getD [] ++ sub) [] qos false .subscribe =
      Rc.success ∨
    mosquittoAclCheck env ctx (ctx.mountPoint.getD [] ++ sub) [] qos false .subscribe = Rc.aclDenied
  add : ∀ qos identifier options (b : State),
    ¬ (b.subAdd c ctx.protocol (ctx.mountPoint.getD [] ++ sub) qos identifier options).1 > 0

/-- What the loop goes on after: a string of length zero, or a pair. -/
def Taken (protocol : Protocol) (f : SubscribeFilter) : Prop :=
  f.sub = .ok [] ∨ ∃ sub options, f = ⟨.ok sub, .ok options⟩ ∧
    mosquittoSubTopicCheck sub = Rc.success ∧ ValidOptions protocol options

theorem taken_of_subscribeOne {f : SubscribeFilter} {b b' : State} {code : Option UInt8}
    (hp : ctx.protocol = .mqtt311 ∨ ctx.protocol = .mqtt5)
    (h : subscribeOne env c ctx identifier f b = (.ok code, b')) : Taken ctx.protocol f := by
  obtain ⟨sub, options⟩ := f
  unfold subscribeOne at h
  split at h
  · cases h
  · rename_i hsub
    exact .inl hsub
  · rename_i sub' _ hsub
    split at h
    · cases h
    · rename_i hcheck
      split at h
      · cases h
      · rename_i hopt
        cases options with
        | error rc => cases hopt
        | ok options =>
          refine .inr ⟨sub', options, ?_, not_not.mp hcheck, (readOptions_eq_ok hp).mp ⟨_, hopt⟩⟩
          rw [← hsub]

theorem taken_of_subscribeLoop {filters : List SubscribeFilter}
    (hp : ctx.protocol = .mqtt311 ∨ ctx.protocol = .mqtt5) :
    ∀ {payload payload' : Bytes} {b b' : State},
      subscribeLoop env c ctx identifier filters payload b = (.ok payload', b') →
      ∀ f ∈ filters, Taken ctx.protocol f := by
  induction filters with
  | nil => exact fun _ => nofun
  | cons f filters ih =>
    intro payload payload' b b' h
    unfold subscribeLoop at h
    split at h
    · cases h
    · rename_i hone
      exact List.forall_mem_cons.mpr ⟨taken_of_subscribeOne hp hone, ih h⟩

/-- A turn of the loop adds one byte for a pair, and none for a string of length zero. -/
theorem subscribeOne_item (hp : ctx.protocol = .mqtt311 ∨ ctx.protocol = .mqtt5)
    {item : Item} (hpair : ∀ pair, item = some pair → ValidPair ctx.protocol pair)
    (hno : ∀ pair, item = some pair → NoError env c ctx pair.1) (b : State) :
    ∃ code b', subscribeOne env c ctx identifier (Item.filter item) b = (.ok code, b') ∧
      code.toList.length = item.toList.length := by
  cases item with
  | none => exact ⟨none, b, rfl, rfl⟩
  | some pair =>
    obtain ⟨hne, -, -, hcheck, hvalid⟩ := hpair pair rfl
    have hno := hno pair rfl
    obtain ⟨sub, options⟩ := pair
    obtain ⟨⟨qos, options', retainHandling⟩, hopt⟩ := (readOptions_eq_ok hp).mpr hvalid
    unfold subscribeOne
    split
    · rename_i h
      cases h
    · rename_i h
      exact absurd (Except.ok.inj h) hne
    · rename_i h
      obtain rfl := Except.ok.inj h
      have hread : ((Item.filter (some (sub, options))).options.mapError
          fun _ => Rc.malformedPacket) >>= readOptions ctx = .ok (qos, options', retainHandling) :=
        hopt
      rw [if_neg (not_not.mpr hcheck)]
      simp only [hread]
      rcases hno.acl qos with hrc | hrc
      · rw [hrc, if_neg (by decide), if_neg (by decide), if_neg (hno.add _ _ _ b)]
        exact ⟨_, _, rfl, rfl⟩
      · rw [hrc, if_pos rfl]
        exact ⟨_, _, rfl, rfl⟩

theorem subscribeLoop_items (hp : ctx.protocol = .mqtt311 ∨ ctx.protocol = .mqtt5)
    {items : List Item} (hpairs : ∀ pair, some pair ∈ items → ValidPair ctx.protocol pair)
    (hno : ∀ pair, some pair ∈ items → NoError env c ctx pair.1) :
    ∀ (payload : Bytes) (b : State), ∃ codes b',
      subscribeLoop env c ctx identifier (items.map Item.filter) payload b =
        (.ok (payload ++ codes), b') ∧ codes.length = (items.filterMap id).length := by
  induction items with
  | nil => exact fun payload b => ⟨[], b, by rw [List.append_nil]; rfl, rfl⟩
  | cons item items ih =>
    intro payload b
    obtain ⟨code, b₁, hone, hcode⟩ := @subscribeOne_item env c ctx identifier hp item
      (fun pair h => hpairs pair (h ▸ List.mem_cons_self))
      (fun pair h => hno pair (h ▸ List.mem_cons_self)) b
    obtain ⟨codes, b₂, hloop, hcodes⟩ := ih
      (fun pair h => hpairs pair (List.mem_cons_of_mem _ h))
      (fun pair h => hno pair (List.mem_cons_of_mem _ h)) (payload ++ code.toList) b₁
    refine ⟨code.toList ++ codes, b₂, ?_, ?_⟩
    · rw [List.map_cons, subscribeLoop, hone]
      simp only
      rw [hloop, List.append_assoc]
    · rw [List.length_append, hcode, hcodes]
      cases item with
      | none => exact Nat.zero_add _
      | some pair => exact Nat.add_comm _ _

end Loop

/-! ## The fixed part -/

section Head

variable {protocol : Protocol} {mid : UInt16} {props : List Property} {items : List Item}
variable {body : Bytes}

/-- A property that is not a user property is the only one of its kind. -/
theorem checkAll_find {command : Nat} {p : Property}
    (huser : p.identifier ≠ Packet.MqttProp.userProperty)
    (hv : mosquittoPropertyCheckAll command props = Rc.success) (hp : p ∈ props) :
    props.find? (·.identifier = p.identifier) = some p := by
  induction props with
  | nil => cases hp
  | cons q props ih =>
    unfold mosquittoPropertyCheckAll at hv
    simp only at hv
    split at hv
    · cases hv
    · split at hv
      · rename_i hne
        exact absurd hv hne
      · split at hv
        · cases hv
        · rename_i hdup
          rcases List.mem_cons.mp hp with rfl | hp
          · rw [List.find?_cons_of_pos (by simp)]
          · rw [List.find?_cons_of_neg, ih hv hp]
            intro hq
            have hq := of_decide_eq_true hq
            refine hdup ⟨hq ▸ huser, List.any_eq_true.mpr ⟨p, hp, ?_⟩⟩
            exact decide_eq_true hq.symm

theorem subscriptionIdentifier_eq_ok
    (hv : mosquittoPropertyCheckAll Packet.Cmd.subscribe props = Rc.success) :
    (∃ identifier, subscriptionIdentifier props = .ok identifier) ↔ ⟨11, .varint 0⟩ ∉ props := by
  constructor
  · rintro ⟨identifier, h⟩ hzero
    have hfind := checkAll_find (p := ⟨11, .varint 0⟩) (by decide) hv hzero
    unfold subscriptionIdentifier at h
    rw [hfind] at h
    cases h
  · intro hzero
    unfold subscriptionIdentifier
    split
    · rename_i i identifier hfind
      by_cases h0 : identifier = 0
      · have hi := List.find?_some hfind
        obtain rfl : i = 11 := of_decide_eq_true hi
        exact absurd (h0 ▸ List.mem_of_find?_eq_some hfind) hzero
      · rw [if_neg h0]
        exact ⟨_, rfl⟩
    · exact ⟨0, rfl⟩

theorem SubscribeItems.readable (h : SubscribeItems protocol mid props items body) :
    ∀ item ∈ items, Item.Readable item := by
  rintro item hitem pair rfl
  have hpair := h.pairs pair hitem
  exact ⟨hpair.nonempty, hpair.length, hpair.utf8⟩

theorem SubscribeItems.read (h : SubscribeItems protocol mid props items body) :
    readSubscribeBody protocol body =
      ⟨0x82, .ok mid, .ok (if protocol = .mqtt5 then props else []), items.map Item.filter⟩ := by
  have hfilters := readFilters_items h.readable (Nat.le_refl _)
  unfold readSubscribeBody
  rw [h.bytes, headBytes, List.append_assoc, Packet.packetReadUint16_eq_ok.mpr rfl]
  simp only
  split
  · rename_i hp
    obtain ⟨hread, hlen, hcheck, -⟩ := h.properties hp
    rw [(Packet.propertyReadAll_eq_ok (.inr hlen)).mpr ⟨hread, hlen, hcheck, rfl⟩]
    simp only
    rw [hfilters]
  · rw [List.nil_append, hfilters]

/-- A body has one reading. -/
theorem SubscribeItems.unique {mid' : UInt16} {props' : List Property} {items' : List Item}
    (h : SubscribeItems protocol mid props items body)
    (h' : SubscribeItems protocol mid' props' items' body) : mid = mid' ∧ items = items' := by
  have heq := h.read.symm.trans h'.read
  injection heq with _ hmid _ hfilters
  exact ⟨Except.ok.inj hmid, Item.filter_injective.list_map hfilters⟩

theorem readSubscribe_eq_ok {command : UInt8} {p : SubscribePacket} :
    readSubscribe command protocol p = .ok (mid, props) ↔
      p.command = command ∧ p.mid = .ok mid ∧ mid ≠ 0 ∧
        if protocol = .mqtt5 then p.properties = .ok props else props = [] := by
  obtain ⟨command', mid', properties, filters⟩ := p
  unfold readSubscribe
  by_cases hc : command' = command
  · cases mid' with
    | error rc => simp [hc, Except.mapError, bind, Except.bind]
    | ok mid' =>
      by_cases h0 : mid' = 0
      · simp [hc, h0, Except.mapError, bind, Except.bind, throw, throwThe, MonadExceptOf.throw]
        exact fun h hne => absurd h.symm hne
      · by_cases hp : protocol = .mqtt5
        · cases properties with
          | error rc => simp [hc, h0, hp, Except.mapError, bind, Except.bind]
          | ok properties =>
            simp [hc, h0, hp, Except.mapError, bind, Except.bind, pure, Except.pure]
            exact fun h _ => h ▸ h0
        · simp [hc, h0, hp, Except.mapError, bind, Except.bind, pure, Except.pure]
          exact fun h _ => h ▸ h0
  · simp [hc, throw, throwThe, MonadExceptOf.throw, bind, Except.bind]

/-- Bytes the loop gets to the end of are items. -/
theorem items_of_taken {s : Bytes} (h : ∀ f ∈ readFilters s.length s, Taken protocol f) :
    ∃ items : List Item, s = items.flatMap Item.bytes ∧
      ∀ pair, some pair ∈ items → ValidPair protocol pair := by
  have hwhole : ∀ f ∈ readFilters s.length s, Whole f := fun f hf =>
    (h f hf).imp_right fun ⟨sub, options, heq, _⟩ => ⟨sub, options, heq⟩
  obtain ⟨items, rfl, hitems⟩ := items_of_whole (Nat.le_refl _) hwhole
  refine ⟨items, rfl, fun pair hpair => ?_⟩
  obtain ⟨hne, hlen, hutf⟩ := hitems _ hpair pair rfl
  rw [readFilters_items hitems (Nat.le_refl _)] at h
  rcases h _ (List.mem_map_of_mem hpair) with hnil | ⟨sub, options, heq, hcheck, hvalid⟩
  · exact absurd (Except.ok.inj hnil) hne
  · obtain ⟨sub', options'⟩ := pair
    cases heq
    exact ⟨hne, hlen, hutf, hcheck, hvalid⟩

theorem items_of_read (hlen : body.length < 2 ^ 28) {identifier : Nat}
    (hfixed : readSubscribe 0x82 protocol (readSubscribeBody protocol body) = .ok (mid, props))
    (hident : subscriptionIdentifier props = .ok identifier)
    (htaken : ∀ f ∈ (readSubscribeBody protocol body).filters, Taken protocol f) :
    ∃ items, SubscribeItems protocol mid props items body := by
  obtain ⟨-, hmid, hnonzero, hprops⟩ := readSubscribe_eq_ok.mp hfixed
  unfold readSubscribeBody at hmid hprops htaken
  cases hread : packetReadUint16 body with
  | error rc =>
    rw [hread] at hmid
    cases hmid
  | ok r =>
    obtain ⟨mid', rest⟩ := r
    obtain rfl := Packet.packetReadUint16_eq_ok.mp hread
    rw [List.length_append] at hlen
    rw [hread] at hmid hprops htaken
    by_cases hp : protocol = .mqtt5
    · simp only [if_pos hp] at hmid hprops htaken
      cases hall : propertyReadAll Packet.Cmd.subscribe rest with
      | error rc =>
        rw [hall] at hprops
        cases hprops
      | ok r =>
        obtain ⟨props', rest'⟩ := r
        rw [hall] at hmid hprops htaken
        cases hmid
        cases hprops
        obtain ⟨hreadable, hshort, hcheck, rfl⟩ :=
          (Packet.propertyReadAll_eq_ok (.inl (by omega))).mp hall
        obtain ⟨items, rfl, hpairs⟩ := items_of_taken htaken
        refine ⟨items, hnonzero, fun _ => ⟨hreadable, hshort, hcheck, ?_⟩, hpairs, ?_⟩
        · exact (subscriptionIdentifier_eq_ok hcheck).mp ⟨_, hident⟩
        · rw [headBytes, if_pos hp, List.append_assoc (uint16Bytes mid)]
    · simp only [if_neg hp] at hmid hprops htaken
      cases hmid
      obtain ⟨items, rfl, hpairs⟩ := items_of_taken htaken
      refine ⟨items, hnonzero, fun h => absurd h hp, hpairs, ?_⟩
      rw [headBytes, if_neg hp, List.append_nil]

end Head

/-! ## The answer -/

/-- The SUBACK packets a client was sent: mid and codes. -/
def subacks (ctx : Context) : List (UInt16 × Bytes) :=
  ctx.replies.filterMap fun
    | .suback mid payload => some (mid, payload)
    | _ => none

/-- The SUBACK packets sent to client `c`. -/
def State.subacks (c : CtxId) (b : State) : List (UInt16 × Bytes) :=
  ((b.contexts.get c).map Broker.subacks).getD []

def handleSubscribeBody (env : Env) (c : CtxId) (body : Bytes) (b : State) : Rc × State :=
  match b.contexts.get c with
  | none => (Rc.inval, b)
  | some ctx => handleSubscribe env c (readSubscribeBody ctx.protocol body) b

section Answer

variable {env : Env} {c : CtxId} {ctx : Context} {b b' : State} {body : Bytes}

theorem Undisturbed.subacks (h : Undisturbed b b') (c : CtxId) : b'.subacks c = b.subacks c :=
  congrArg (Option.getD · []) (h.replies (fun _ => rfl) c)

theorem subacks_subscribeDone (mid : UInt16) (payload : Bytes) (m : Machine) :
    subacks (subscribeDone env mid payload m).2.ctx = subacks m.ctx ++ [(mid, payload)] := by
  have hsent : subacks (sendCommand env.net (.suback mid payload) m).2.ctx =
      subacks m.ctx ++ [(mid, payload)] := by
    show List.filterMap _ (m.ctx.replies ++ [Command.suback mid payload]) = _
    rw [List.filterMap_append]
    rfl
  have hout : ∀ {m m' : Machine}, Outwards env.net m m' → subacks m'.ctx = subacks m.ctx :=
    fun h => filterMap_of_acks (fun _ => rfl) (Prod.mk.inj (incoming_outwards h).1).2
  unfold subscribeDone
  simp only
  split
  · split
    · rw [hout (outwards_messageWriteQueuedOut _), hsent]
    · rw [hout (outwards_messageWriteInflightOutLatest _), hout (outwards_messageWriteQueuedOut _),
        hsent]
  · exact hsent

/-- The filters that get as far as the access control. -/
def Clean (env : Env) (c : CtxId) (ctx : Context) (body : Bytes) : Prop :=
  ∀ f ∈ (readSubscribeBody ctx.protocol body).filters, ∀ sub, f.sub = .ok sub → sub ≠ [] →
    mosquittoSubTopicCheck sub = Rc.success → NoError env c ctx sub

theorem Clean.noError {mid : UInt16} {props : List Property} {items : List Item}
    (hclean : Clean env c ctx body) (h : SubscribeItems ctx.protocol mid props items body) :
    ∀ pair, some pair ∈ items → NoError env c ctx pair.1 := by
  intro pair hpair
  have hvalid := h.pairs pair hpair
  refine hclean (Item.filter (some pair)) ?_ pair.1 rfl hvalid.nonempty hvalid.check
  rw [h.read]
  exact List.mem_map_of_mem hpair

theorem filterMap_ne_nil {items : List Item} {pair : Bytes × UInt8} (h : some pair ∈ items) :
    items.filterMap id ≠ [] :=
  List.ne_nil_of_mem (List.mem_filterMap.mpr ⟨_, h, rfl⟩)

/-- A body of pairs, with or without gaps, is answered. -/
theorem subacks_of_items (hget : b.contexts.get c = some ctx) (hactive : ctx.state = .active)
    (hp : ctx.protocol = .mqtt311 ∨ ctx.protocol = .mqtt5) (hclean : Clean env c ctx body)
    {mid : UInt16} {props : List Property} {items : List Item} {pair : Bytes × UInt8}
    (h : SubscribeItems ctx.protocol mid props items body) (hpair : some pair ∈ items) :
    ∃ payload, (handleSubscribeBody env c body b).2.subacks c = b.subacks c ++ [(mid, payload)] ∧
      payload.length = (items.filterMap id).length := by
  have hread : readSubscribe 0x82 ctx.protocol (readSubscribeBody ctx.protocol body) =
      .ok (mid, if ctx.protocol = .mqtt5 then props else []) := by
    rw [readSubscribe_eq_ok, h.read]
    refine ⟨rfl, rfl, h.nonzero, ?_⟩
    split
    · rfl
    · rfl
  obtain ⟨identifier, hident⟩ : ∃ identifier,
      subscriptionIdentifier (if ctx.protocol = .mqtt5 then props else []) = .ok identifier := by
    split
    · rename_i h5
      exact (subscriptionIdentifier_eq_ok (h.properties h5).check).mpr (h.properties h5).identifier
    · exact ⟨0, rfl⟩
  obtain ⟨codes, b', hloop, hcodes⟩ := @subscribeLoop_items env c ctx identifier hp items h.pairs
    (hclean.noError h) [] b
  have hquiet := @undisturbed_subscribeLoop env c ctx identifier (items.map Item.filter) [] b
  rw [hloop] at hquiet
  have hne : codes ≠ [] := by
    intro hnil
    rw [hnil] at hcodes
    exact filterMap_ne_nil hpair (List.length_eq_zero_iff.mp hcodes.symm)
  have hhandle : handleSubscribeBody env c body b =
      b'.onClient c (subscribeDone env mid codes) := by
    unfold handleSubscribeBody
    rw [hget]
    simp only
    unfold handleSubscribe
    rw [hget]
    simp only
    rw [if_neg (not_not.mpr hactive), hread]
    simp only
    rw [hident]
    simp only
    rw [h.read]
    simp only
    rw [hloop]
    simp only [List.nil_append]
    rw [if_neg fun hnil => hne hnil.2]
  refine ⟨codes, ?_, hcodes⟩
  obtain ⟨ctx', hget', hin⟩ : ∃ ctx', b'.contexts.get c = some ctx' ∧
      ctx'.incoming = ctx.incoming := by
    have hc := hquiet.1 c
    rw [hget, Option.map_some, Option.map_eq_some_iff] at hc
    exact hc
  rw [hhandle, ← hquiet.subacks c]
  unfold State.onClient State.subacks
  rw [hget']
  simp only
  rw [Heap.get_set_self]
  exact subacks_subscribeDone mid codes ⟨b'.db, ctx'⟩

/-- A body that is answered is one of pairs, with or without gaps. -/
theorem items_of_subacks (hget : b.contexts.get c = some ctx)
    (hp : ctx.protocol = .mqtt311 ∨ ctx.protocol = .mqtt5) (hlen : body.length < 2 ^ 28)
    (hclean : Clean env c ctx body) {answer : UInt16 × Bytes}
    (h : (handleSubscribeBody env c body b).2.subacks c = b.subacks c ++ [answer]) :
    ∃ mid props items pair, SubscribeItems ctx.protocol mid props items body ∧
      some pair ∈ items := by
  have hquiet : ∀ {b' : State}, Undisturbed b b' → b'.subacks c ≠ b.subacks c ++ [answer] := by
    intro b' hb' heq
    rw [hb'.subacks c] at heq
    exact absurd heq.symm (by simp)
  unfold handleSubscribeBody at h
  rw [hget] at h
  simp only at h
  unfold handleSubscribe at h
  rw [hget] at h
  simp only at h
  split at h
  · exact absurd h (hquiet (.refl b))
  cases hread : readSubscribe 0x82 ctx.protocol (readSubscribeBody ctx.protocol body) with
  | error rc =>
    rw [hread] at h
    exact absurd h (hquiet (.refl b))
  | ok r =>
    obtain ⟨mid, props⟩ := r
    rw [hread] at h
    simp only at h
    cases hident : subscriptionIdentifier props with
    | error rc =>
      rw [hident] at h
      exact absurd h (hquiet (.refl b))
    | ok identifier =>
      rw [hident] at h
      simp only at h
      have hloop := @undisturbed_subscribeLoop env c ctx identifier
        (readSubscribeBody ctx.protocol body).filters [] b
      split at h
      · rename_i heq
        rw [heq] at hloop
        exact absurd h (hquiet hloop)
      · rename_i payload b' heq
        rw [heq] at hloop
        split at h
        · exact absurd h (hquiet hloop)
        · rename_i hne
          obtain ⟨items, hitems⟩ := items_of_read hlen hread hident (taken_of_subscribeLoop hp heq)
          -- the codes are as many as the pairs
          obtain ⟨codes, b'', heq', hcodes⟩ := @subscribeLoop_items env c ctx identifier hp items
            hitems.pairs (hclean.noError hitems) [] b
          rw [hitems.read] at heq
          simp only at heq
          rw [heq', List.nil_append] at heq
          obtain rfl : codes = payload := Except.ok.inj (Prod.mk.inj heq).1
          obtain ⟨pair, hpair⟩ : ∃ pair, pair ∈ items.filterMap id := by
            refine List.exists_mem_of_ne_nil _ fun hnil => hne ⟨?_, ?_⟩
            · rcases hp with hp | hp <;> rw [hp] <;> decide
            · rw [hnil] at hcodes
              exact List.length_eq_zero_iff.mp hcodes
          obtain ⟨item, hitem, hsome⟩ := List.mem_filterMap.mp hpair
          exact ⟨mid, props, items, pair, hitems, hsome ▸ hitem⟩

end Answer

/-- `handle__subscribe` answers the bodies of the grammar and no others, with a code for each
pair. -/
structure Exact (env : Env) (c : CtxId) (protocol : Protocol) (body : Bytes) (b : State) :
    Prop where
  accepts : (∃ answer, (handleSubscribeBody env c body b).2.subacks c = b.subacks c ++ [answer]) ↔
    ∃ mid pairs, SubscribeBody protocol mid pairs body
  codes : ∀ mid pairs, SubscribeBody protocol mid pairs body → ∃ payload,
    (handleSubscribeBody env c body b).2.subacks c = b.subacks c ++ [(mid, payload)] ∧
      payload.length = pairs.length

theorem map_some_filterMap {items : List Item} (h : none ∉ items) :
    (items.filterMap id).map some = items := by
  induction items with
  | nil => rfl
  | cons item items ih =>
    rw [List.mem_cons, not_or] at h
    obtain ⟨pair, rfl⟩ := Option.ne_none_iff_exists'.mp (Ne.symm h.1)
    exact congrArg (some pair :: ·) (ih h.2)

theorem filterMap_map_some (pairs : List (Bytes × UInt8)) :
    ((pairs.map some : List Item)).filterMap id = pairs := by
  rw [List.filterMap_map]
  exact List.filterMap_some

/-- **The parser of SUBSCRIBE accepts exactly its grammar if and only if** the body has no string
of length zero among its pairs. -/
theorem subscribe_exact_iff {env : Env} {c : CtxId} {ctx : Context} {b : State} {body : Bytes}
    (hget : b.contexts.get c = some ctx) (hactive : ctx.state = .active)
    (hp : ctx.protocol = .mqtt311 ∨ ctx.protocol = .mqtt5) (hlen : body.length < 2 ^ 28)
    (hclean : Clean env c ctx body) :
    Exact env c ctx.protocol body b ↔ ¬ Gapped ctx.protocol body := by
  have hcodes : ∀ mid pairs, SubscribeBody ctx.protocol mid pairs body → ∃ payload,
      (handleSubscribeBody env c body b).2.subacks c = b.subacks c ++ [(mid, payload)] ∧
        payload.length = pairs.length := by
    rintro mid pairs ⟨hne, props, hitems⟩
    obtain ⟨pair, hpair⟩ := List.exists_mem_of_ne_nil pairs hne
    have hanswer := subacks_of_items hget hactive hp hclean hitems (List.mem_map_of_mem hpair)
    rwa [filterMap_map_some] at hanswer
  constructor
  · rintro hexact ⟨mid, props, items, hitems, hgap, pair, hpair⟩
    obtain ⟨payload, hanswer, -⟩ := subacks_of_items hget hactive hp hclean hitems hpair
    obtain ⟨mid', pairs, -, props', hitems'⟩ := hexact.accepts.mp ⟨_, hanswer⟩
    obtain ⟨-, rfl⟩ := hitems.unique hitems'
    obtain ⟨_, _, h⟩ := List.mem_map.mp hgap
    cases h
  · refine fun hgap => ⟨⟨?_, ?_⟩, hcodes⟩
    · rintro ⟨answer, h⟩
      obtain ⟨mid, props, items, pair, hitems, hpair⟩ := items_of_subacks hget hp hlen hclean h
      have hall : none ∉ items := fun hnone => hgap ⟨mid, props, items, hitems, hnone, pair, hpair⟩
      refine ⟨mid, items.filterMap id, filterMap_ne_nil hpair, props, ?_⟩
      rw [map_some_filterMap hall]
      exact hitems
    · rintro ⟨mid, pairs, h⟩
      obtain ⟨payload, hanswer, -⟩ := hcodes mid pairs h
      exact ⟨_, hanswer⟩

/-- `sub__add` has no error for a filter that can be split into levels of at most 65535 bytes. -/
theorem not_subAdd_error {sub : Bytes} {topics : List Bytes} {share : Option Bytes}
    (htok : subTopicTokenise sub = .ok (topics, share)) (hlen : ∀ l ∈ topics, l.length ≤ 65535)
    (c : CtxId) (protocol : Protocol) (qos : Qos) (identifier : Nat) (options : UInt8) (b : State) :
    ¬ (b.subAdd c protocol sub qos identifier options).1 > 0 := by
  have hbranches : ∀ (topics : List Bytes) (p : Path) (t : SubTree),
      (∀ l ∈ topics, l.length ≤ 65535) → ∃ t' node, addBranches topics p t = (t', .ok node) := by
    intro topics
    induction topics with
    | nil => exact fun p t _ => ⟨t, p, rfl⟩
    | cons topic topics ih =>
      intro p t h
      rw [List.forall_mem_cons] at h
      rw [addBranches, if_neg (Nat.not_lt.mpr h.1)]
      exact ih _ _ h.2
  have hroot : ¬ (topics.headD []).length > 65535 := by
    cases topics with
    | nil => exact Nat.not_lt.mpr (Nat.zero_le _)
    | cons topic topics => exact Nat.not_lt.mpr (hlen _ List.mem_cons_self)
  have hresult : ∀ {ids ls},
      ¬ addResult protocol (subAddLeaf ids c qos identifier options ls).1 > 0 := by
    intro ids ls
    unfold addResult
    rcases subAddLeaf_cases ids c qos identifier options ls with
      ⟨_, _, _, -, -, -, hr⟩ | ⟨-, hr⟩
    · simp only [hr]
      split <;> decide
    · simp only [hr]
      split <;> decide
  unfold State.subAdd subAdd
  rw [htok]
  simp only
  rw [if_neg hroot]
  unfold subAddContext
  obtain ⟨t', node, hadd⟩ := hbranches topics [topics.headD []]
    (b.subs.tree.addHierEntry [topics.headD []]) hlen
  have hzero : ¬ Rc.success > 0 := by decide
  rw [hadd]
  simp only
  split
  · exact hzero
  · split
    · unfold subAddShared
      split
      · exact hzero
      · extract_lets h members r tree
        split
        · exact hresult
        · exact hresult
    · unfold subAddNormal
      split
      · exact hzero
      · extract_lets r tree
        split
        · exact hresult
        · exact hresult

/-- A client of MQTT 3.1.1. -/
def subscriber : Context :=
  { Context.init Config.init (some 4) with
    id := some (ascii "c"), state := .active, protocol := .mqtt311 }

def subscriberBroker : State :=
  let b := State.dbOpen Config.init fun _ => ⟨0, 0, 0⟩
  { b with contexts := b.contexts.set 0 subscriber, nextContext := 1 }

theorem SubscribeItems.filters {protocol : Protocol} {mid : UInt16} {props : List Property}
    {items : List Item} {body : Bytes} (h : SubscribeItems protocol mid props items body) :
    (readSubscribeBody protocol body).filters = items.map Item.filter := by
  rw [h.read]

theorem subscribe_exact_one :
    subscriberBroker.contexts.get 0 = some subscriber ∧
      Exact .granting 0 .mqtt311 [0, 1, 0, 1, 0x61, 0] subscriberBroker := by
  have hfilters : (readSubscribeBody .mqtt311 [0, 1, 0, 1, 0x61, 0]).filters =
      [⟨.ok [0x61], .ok 0⟩] := rfl
  refine ⟨rfl, ?_⟩
  refine (@subscribe_exact_iff .granting 0 subscriber subscriberBroker [0, 1, 0, 1, 0x61, 0]
    rfl rfl (.inl rfl) (by decide) ?_).mpr ?_
  · intro f hf sub hsub _ _
    obtain rfl := List.mem_singleton.mp (hfilters ▸ hf)
    obtain rfl := Except.ok.inj hsub
    exact ⟨fun qos => .inl (by cases qos <;> decide),
      fun qos identifier options b => @not_subAdd_error [0x61] [[], [0x61]] none rfl (by decide)
        0 .mqtt311 qos identifier options b⟩
  · rintro ⟨mid, props, items, hitems, hnone, -⟩
    have hgap := List.mem_map_of_mem (f := Item.filter) hnone
    rw [← hitems.filters] at hgap
    have hread : Item.filter none = ⟨.ok [0x61], .ok 0⟩ := List.mem_singleton.mp (hfilters ▸ hgap)
    cases hread

/-- **A string of length zero is passed over**: the body with one before its only pair is
answered, and it is not of the grammar. -/
theorem empty_filter_passed_over :
    (handleSubscribeBody .granting 0 [0, 1, 0, 0, 0, 1, 0x61, 0] subscriberBroker).2.subacks 0 =
        subscriberBroker.subacks 0 ++ [(1, [0])] ∧
      ¬ ∃ mid pairs, SubscribeBody .mqtt311 mid pairs [0, 1, 0, 0, 0, 1, 0x61, 0] := by
  constructor
  · decide +kernel
  · rintro ⟨mid, pairs, -, props, hitems⟩
    have hfilters : [⟨.ok [], .error Rc.malformedPacket⟩, ⟨.ok [0x61], .ok 0⟩] =
      (pairs.map some).map Item.filter := hitems.filters
    cases pairs with
    | nil => cases hfilters
    | cons pair pairs =>
      obtain ⟨sub, options⟩ := pair
      cases (List.cons.inj hfilters).1

end AdaptiveMqtt.Broker
