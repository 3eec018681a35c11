import AdaptiveMqtt.Broker.Waiting

/-!
# Sessions that expire

Every event keeps the registry tidy, so the list of sessions that expire is sorted in every
run, and `session_expiry__check` finds what is due at the front of it.
-/

namespace AdaptiveMqtt.Broker

open Lib Db

def Party.expired (p : Party) : Party :=
  { p with sessionExpiryInterval := 0, willDelayInterval := 0 }.willClear.discarded

/-- What is left of an old connection of a client before it is disconnected. -/
def Party.takenOver (p : Party) : Party :=
  { p.willClear with cleanStart := true, sessionExpiryInterval := 0 }.setState .duplicate

namespace Registry

/-! ## Take-over -/

section TakeOver

variable {r : Registry} {found c : CtxId} {old p : Party}

theorem takenOver_fields (p : Party) :
    p.takenOver.sock = p.sock ∧ p.takenOver.sessionExpiryInterval = 0 ∧ p.takenOver.will = none ∧
      p.takenOver.id = p.id ∧ p.takenOver.bridged = p.bridged ∧
      p.takenOver.removedFromById = p.removedFromById := by
  unfold Party.takenOver Party.setState Party.willClear
  split <;> split <;> simp_all

theorem takenOver_state (p : Party) :
    p.takenOver.state = if p.state = .disused then .disused else .duplicate := by
  have hstate : ∀ q : Party, (q.setState .duplicate).state =
      if q.state = .disused then .disused else .duplicate := by
    intro q
    unfold Party.setState
    by_cases h : q.state = .disused
    · rw [if_neg (not_not.mpr h), if_pos h, h]
    · rw [if_pos h, if_neg h]
  refine (hstate _).trans ?_
  show (if p.willClear.state = .disused then _ else _) = _
  rw [(willClear_fields p).1]

theorem takenOver_undelayed (hu : p.will = none → p.willDelayInterval = 0) :
    p.takenOver.willDelayInterval = 0 := by
  have hset : ∀ q : Party, (q.setState .duplicate).willDelayInterval = q.willDelayInterval := by
    intro q
    unfold Party.setState
    split <;> rfl
  exact (hset _).trans (willClear_cleared hu).2

theorem takenOver_willClear (p : Party) : p.willClear.takenOver = p.takenOver := by
  have hclear : p.willClear.willClear = p.willClear := by
    unfold Party.willClear
    by_cases h : p.will.isSome = true
    · rw [if_pos h]
      rfl
    · rw [if_neg h, if_neg h]
  unfold Party.takenOver
  rw [hclear]

/-- The old connection is out of the lists when it is disconnected. -/
theorem takeOver_eq (hfound : r.parties found = some old) (hc : r.parties c = some p) :
    ∃ time, r.takeOver found c =
      (r.place found { old with willDelayTime := time }.takenOver r.contextsById
        (r.expiryList.erase found) (r.delayList.erase found) r.llForFree).disconnect found := by
  have hkeep : (((r.expiryRemove found).delayRemove found).modify found (·.takenOver)) =
      r.place found old.takenOver r.contextsById (r.expiryList.erase found)
        (r.delayList.erase found) r.llForFree := by
    conv_lhs => rw [eq_place hfound]
    rw [expiryRemove_place, delayRemove_place, modify_place]
  unfold takeOver
  rw [hfound, hc]
  simp only
  generalize decide ((old.protocol = .mqtt5 ∧ old.sessionExpiryInterval = 0) ∨
    (old.protocol ≠ .mqtt5 ∧ old.cleanStart = true) ∨ p.cleanStart = true) = due
  cases due with
  | false => exact ⟨old.willDelayTime, congrArg (disconnect found) hkeep⟩
  | true =>
    simp only [if_true]
    by_cases hd : old.Delays
    · by_cases hmem : found ∈ r.delayList
      · -- the will waits already
        have hsame : r.sendWill found = r := by
          unfold sendWill delayAdd
          rw [hfound]
          simp only
          rw [if_pos hd, if_pos hmem]
        rw [hsame]
        exact ⟨old.willDelayTime, congrArg (disconnect found) hkeep⟩
      · refine ⟨r.now + old.willDelayInterval, congrArg (disconnect found) ?_⟩
        have hdelay : (r.delayed found old r.delayList).erase found = r.delayList.erase found := by
          rw [delayed, Agenda.erase_insertBefore hmem, List.erase_of_not_mem hmem]
        conv_lhs => rw [eq_place hfound]
        rw [sendWill_place_delay hd hmem, expiryRemove_place, delayRemove_place, hdelay]
        exact modify_place
    · refine ⟨old.willDelayTime, congrArg (disconnect found) ?_⟩
      conv_lhs => rw [eq_place hfound]
      rw [sendWill_place_clear hd, expiryRemove_place, delayRemove_place]
      refine modify_place.trans ?_
      show r.place found old.willClear.takenOver _ _ _ _ = _
      rw [takenOver_willClear]

end TakeOver

/-! ## Events keep the registry tidy -/

section Tidy

variable {r r' : Registry} {found c d : CtxId} {p q old : Party} {f : Party → Party}

/-- A client that is in no list is changed. -/
theorem Tidy.modify (h : Tidy r) (hp : r.parties c = some p) (hc : c ∉ r.expiryList)
    (hs : Suits r c (f p)) : Tidy (r.modify c f) := by
  have ho := only_modify c f r
  have hself : (r.modify c f).parties c = some (f p) := by rw [modify_self, hp, Option.map_some]
  exact h.only ho hself ⟨hs.expiring, hs.delaying, hs.doomed, hs.disused, hs.pending, hs.undelayed,
    hs.plain, hs.allocated, hs.closed⟩ h.expiryNodup h.delayNodup (h.sorted_notMem ho hc)

/-- The clock, the ids and the times of the last checks have no say. -/
theorem Tidy.of_eq (h : Tidy r) (hparties : r'.parties = r.parties)
    (hnext : r'.nextContext = r.nextContext) (hexpiry : r'.expiryList = r.expiryList)
    (hdelay : r'.delayList = r.delayList) (hfree : r'.llForFree = r.llForFree)
    (hlimit : r'.limit = r.limit) : Tidy r' := by
  obtain ⟨parties, nextContext, byId, expiry, lastExpiry, delay, lastDelay, free, limit, now⟩ := r'
  subst hparties hnext hexpiry hdelay hfree hlimit
  refine ⟨fun {c p} hp => ?_, h.expiring, h.delaying, h.doomed, h.expiryNodup, h.delayNodup,
    h.sorted⟩
  have hs := h.suits hp
  exact ⟨hs.expiring, hs.delaying, hs.doomed, hs.disused, hs.pending, hs.undelayed, hs.plain,
    hs.allocated, hs.closed⟩

theorem notMem_erase (h : r.expiryList.Nodup) : c ∉ r.expiryList.erase c := fun hm =>
  absurd rfl (h.mem_erase_iff.mp hm).1

theorem tidy_expiryRemove (h : Tidy r) (c : CtxId) : Tidy (r.expiryRemove c) := by
  have ho := only_expiryRemove c r
  have hc : c ∉ (r.expiryRemove c).expiryList := notMem_erase h.expiryNodup
  have hsub : ∀ d ∈ (r.expiryRemove c).expiryList, d ∈ r.expiryList := fun d =>
    List.mem_of_mem_erase
  refine ⟨fun {d p} hd => ?_, fun d hd => h.expiring d (hsub d hd), h.delaying, h.doomed,
    h.expiryNodup.erase c, h.delayNodup, h.sorted_notMem ho hc⟩
  have hs := h.suits hd
  exact ⟨fun hm => hs.expiring (hsub d hm), hs.delaying, hs.doomed, hs.disused, hs.pending,
    hs.undelayed, hs.plain, hs.allocated, hs.closed⟩

/-- The old connection waits for nothing when it is disconnected. -/
theorem tidy_takenOver (h : Tidy r) (hfound : r.parties found = some old) (time : Int) :
    let r₁ := r.place found { old with willDelayTime := time }.takenOver r.contextsById
      (r.expiryList.erase found) (r.delayList.erase found) r.llForFree
    Tidy r₁ ∧ Only found r r₁ ∧ found ∉ r₁.expiryList ∧ found ∉ r₁.delayList := by
  have hs := h.suits hfound
  obtain ⟨hsock, hzero, hwill, hid, hbridged, -⟩ :=
    takenOver_fields { old with willDelayTime := time }
  have hstate := takenOver_state { old with willDelayTime := time }
  have hdelay := takenOver_undelayed (p := { old with willDelayTime := time }) hs.undelayed
  generalize Party.takenOver { old with willDelayTime := time } = q at *
  have hexpiry : found ∉ r.expiryList.erase found := notMem_erase h.expiryNodup
  have hdelaying : found ∉ r.delayList.erase found := fun hm =>
    absurd rfl (h.delayNodup.mem_erase_iff.mp hm).1
  have ho : Only found r (r.place found q r.contextsById (r.expiryList.erase found)
      (r.delayList.erase found) r.llForFree) :=
    only_place (filter_erase found _) (filter_erase found _) rfl
  refine ⟨h.only ho place_self ⟨fun hm => absurd hm hexpiry, fun hm => absurd hm hdelaying,
    fun hm => ?_, fun hq => ?_, fun _ hw => absurd hwill hw, fun _ => hdelay,
    hbridged.trans hs.plain, hs.allocated, fun hq => ?_⟩ (h.expiryNodup.erase found)
    (h.delayNodup.erase found) (h.sorted_notMem ho hexpiry), ho, hexpiry, hdelaying⟩
  · rw [hstate]
    exact if_pos (hs.doomed hm)
  · have hold : old.state = .disused := by
      by_contra hne
      rw [hstate, if_neg hne] at hq
      cases hq
    exact ⟨hsock.trans (hs.disused hold).1, hzero, hwill, hid.trans (hs.disused hold).2.2.2⟩
  · rw [hstate] at hq
    split at hq <;> cases hq

/-- The old connection is to be freed, and all else is as it was. -/
theorem tidy_takeOver (h : Tidy r) (hfound : r.parties found = some old)
    (hc : r.parties c = some p) :
    Tidy (r.takeOver found c) ∧ Only found r (r.takeOver found c) ∧
      ∃ q, (r.takeOver found c).parties found = some q ∧ q.state = .disused := by
  obtain ⟨time, htake⟩ := takeOver_eq hfound hc
  obtain ⟨htidy, ho, hexpiry, hdelaying⟩ := tidy_takenOver h hfound time
  have hs := h.suits hfound
  obtain ⟨hsock, hzero, hwill, -, hbridged, -⟩ :=
    takenOver_fields { old with willDelayTime := time }
  have hstate := takenOver_state { old with willDelayTime := time }
  have hdelay := takenOver_undelayed (p := { old with willDelayTime := time }) hs.undelayed
  rw [htake]
  refine ⟨tidy_disconnect htidy found, ho.trans (only_disconnect found _), ?_⟩
  generalize Party.takenOver { old with willDelayTime := time } = q at *
  have hnone : ¬ q.Delays := fun hd => by
    have := hd.1
    rw [hwill] at this
    cases this
  by_cases hold : old.state = .disused
  · have hq : q.state = .disused := hstate.trans (if_pos hold)
    rw [disconnect_disused place_self hq (hsock.trans (hs.disused hold).1) hzero hwill]
    exact ⟨q, place_self, hq⟩
  · have hq : q.state = .duplicate := hstate.trans (if_neg hold)
    have hself := @place_self r found q r.contextsById (r.expiryList.erase found)
      (r.delayList.erase found) r.llForFree
    have hdep := departs_disconnect hself (fun e => nomatch hq.symm.trans e)
      (fun e => nomatch hq.symm.trans e) hexpiry hdelaying (fun _ => hdelay)
      (hbridged.trans hs.plain)
    generalize disconnect found _ = r' at hdep
    cases hdep with
    | discard => exact ⟨_, place_self, rfl⟩
    | stay hz => exact absurd (hz hzero) hnone
    | expire hne => exact absurd hzero hne

/-- A round of one of the two checks leaves no trace in the lists. -/
theorem Tidy.place (h : Tidy r) (hp : r.parties c = some p)
    {byId : Bytes → Option CtxId} {expiry delay free : List CtxId}
    (hexpiry : expiry = r.expiryList ∧ q.sessionExpiryTime = p.sessionExpiryTime ∨
      expiry = r.expiryList.erase c)
    (hdelay : delay = r.delayList ∨ delay = r.delayList.erase c)
    (hfree : free = r.llForFree ∨ free = c :: r.llForFree)
    (hs : Suits (r.place c q byId expiry delay free) c q) :
    Tidy (r.place c q byId expiry delay free) := by
  have ho : Only c r (r.place c q byId expiry delay free) := by
    refine only_place ?_ ?_ ?_
    · rcases hexpiry with ⟨rfl, -⟩ | rfl
      · rfl
      · exact filter_erase c _
    · rcases hdelay with rfl | rfl
      · rfl
      · exact filter_erase c _
    · rcases hfree with rfl | rfl
      · rfl
      · exact List.filter_cons_of_neg (by simp)
  refine h.only ho place_self hs ?_ ?_ ?_
  · rcases hexpiry with ⟨rfl, -⟩ | rfl
    · exact h.expiryNodup
    · exact h.expiryNodup.erase c
  · rcases hdelay with rfl | rfl
    · exact h.delayNodup
    · exact h.delayNodup.erase c
  · rcases hexpiry with ⟨rfl, htime⟩ | rfl
    · refine h.sorted.imp_of_mem fun {a b} _ _ hle => ?_
      have hsame : ∀ d, (r.place c q byId r.expiryList delay free).expiryTime d = r.expiryTime d := by
        intro d
        by_cases hd : d = c
        · subst hd
          rw [Registry.expiryTime, Registry.expiryTime, place_self, hp]
          exact htime
        · exact ho.expiryTime hd
      rw [hsame, hsame]
      exact hle
    · exact h.sorted_notMem ho (notMem_erase h.expiryNodup)

theorem willClear_rest (p : Party) :
    p.willClear.sock = p.sock ∧ p.willClear.bridged = p.bridged ∧
      p.willClear.sessionExpiryTime = p.sessionExpiryTime := by
  unfold Party.willClear
  split <;> exact ⟨rfl, rfl, rfl⟩

theorem tidy_expire (h : Tidy r) (hc : c ∈ r.expiryList) : Tidy (r.expire c) := by
  obtain ⟨p, hp⟩ := h.expiring c hc
  have hs := h.suits hp
  obtain ⟨hstate, hsock, -, -⟩ := hs.expiring hc
  have hclear := willClear_cleared (p := { p with sessionExpiryInterval := 0, willDelayInterval := 0 })
    fun _ => rfl
  have hrest := willClear_rest { p with sessionExpiryInterval := 0, willDelayInterval := 0 }
  have hzero := (willClear_fields { p with sessionExpiryInterval := 0, willDelayInterval := 0 }).2.1
  rw [expire_eq hp fun e => nomatch hstate.symm.trans e]
  refine h.place hp (.inr rfl) (.inr rfl) (.inr rfl) (suits_discarded hs rfl ?_ ?_ ?_)
  · exact notMem_erase h.expiryNodup
  · exact fun hm => absurd rfl (h.delayNodup.mem_erase_iff.mp hm).1
  · exact ⟨hrest.1.trans hsock, hzero, hclear.1, hclear.2, hrest.2.1⟩

theorem tidy_fire (h : Tidy r) (hc : c ∈ r.delayList) : Tidy (r.fire c) := by
  obtain ⟨p, hp⟩ := h.delaying c hc
  have hs := h.suits hp
  obtain ⟨hstate, hsock, -⟩ := hs.delaying hc
  have hclear := willClear_cleared (p := { p with willDelayInterval := 0 }) fun _ => rfl
  have hrest := willClear_rest { p with willDelayInterval := 0 }
  have hfields := willClear_fields { p with willDelayInterval := 0 }
  have hnot : c ∉ r.delayList.erase c := fun hm => absurd rfl (h.delayNodup.mem_erase_iff.mp hm).1
  rw [fire_eq hp fun e => nomatch hstate.symm.trans e]
  simp only
  split
  · rename_i hzero
    have hexpiry : c ∉ r.expiryList := fun hm => (hs.expiring hm).2.2.1 hzero
    refine h.place hp (.inl ⟨rfl, hrest.2.2⟩) (.inr rfl) (.inr rfl)
      (suits_discarded hs rfl hexpiry hnot ?_)
    exact ⟨hrest.1.trans hsock, hfields.2.1.trans hzero, hclear.1, hclear.2, hrest.2.1⟩
  · have hne : p.state ≠ .disused := fun e => nomatch hstate.symm.trans e
    refine h.place hp (.inl ⟨rfl, hrest.2.2⟩) (.inr rfl) (.inl rfl) ⟨fun hm => ?_,
      fun hm => absurd hm hnot, fun hm => absurd (hs.doomed hm) hne,
      fun e => absurd (hfields.1.symm.trans e) hne, fun _ hw => absurd hclear.1 hw,
      fun _ => hclear.2, hrest.2.1.trans hs.plain, hs.allocated, fun _ => hrest.1.trans hsock⟩
    obtain ⟨-, -, hpos, hend⟩ := hs.expiring hm
    rw [hfields.2.1, hrest.1, hfields.1]
    exact ⟨hstate, hsock, hpos, hend⟩

/-! ### Freeing -/

/-- A client that is freed leaves nothing behind. -/
theorem cleanup_eq (hs : ∀ p, r.parties c = some p → p.state = .disused ∧ p.sock = none ∧
      p.sessionExpiryInterval = 0 ∧ p.will = none ∧ p.id = none) :
    r.cleanup c = { r with parties := Function.update r.parties c none } := by
  unfold cleanup
  cases hp : r.parties c with
  | none =>
    have hwill : r.sendWill c = r := by
      unfold sendWill
      rw [hp]
    have hid : r.removeFromById c = r := by
      unfold removeFromById
      rw [hp]
      rfl
    rw [modify_none hp]
    simp only
    rw [hwill, hid]
  | some p =>
    obtain ⟨-, -, -, hwill, hid⟩ := hs p hp
    have hnone : ¬ Party.Delays { p with cleanStart := true, sock := none } := fun hd => by
      have := hd.1
      rw [show Party.will { p with cleanStart := true, sock := none } = none from hwill] at this
      cases this
    have hclear : Party.willClear { p with cleanStart := true, sock := none } =
        { p with cleanStart := true, sock := none } := if_neg (by simp [hwill])
    have hforget : forget { p with cleanStart := true, sock := none } r.contextsById =
        r.contextsById := by
      unfold forget
      rw [show Party.id { p with cleanStart := true, sock := none } = none from hid]
      exact ite_self _
    conv_lhs => rw [eq_place hp]
    rw [modify_place]
    simp only [Party.socketClose]
    rw [sendWill_place_clear hnone, hclear, removeFromById_place, hforget]
    simp only [Registry.place, Function.update_idem]

theorem freeDisused_eq (h : Tidy r) :
    r.freeDisused =
      { r with llForFree := [], parties := fun d => if d ∈ r.llForFree then none else r.parties d } := by
  have hfold : ∀ (l : List CtxId) (r : Registry), (∀ c ∈ l, ∀ p, r.parties c = some p →
      p.state = .disused ∧ p.sock = none ∧ p.sessionExpiryInterval = 0 ∧ p.will = none ∧
        p.id = none) →
      l.foldl (fun r c => r.cleanup c) r =
        { r with parties := fun d => if d ∈ l then none else r.parties d } := by
    intro l
    induction l with
    | nil =>
      intro r _
      simp
    | cons c l ih =>
      intro r hl
      obtain ⟨hc, hrest⟩ := List.forall_mem_cons.mp hl
      rw [List.foldl_cons, cleanup_eq hc, ih]
      · refine congrArg (fun f => { r with parties := f }) (funext fun d => ?_)
        show (if d ∈ l then none else Function.update r.parties c none d) = _
        rw [Function.update_apply]
        by_cases hd : d = c
        · simp [hd]
        · simp [hd]
      · intro d hd p hp
        have hp : Function.update r.parties c none d = some p := hp
        rw [Function.update_apply] at hp
        split at hp
        · cases hp
        · exact hrest d hd p hp
  refine hfold r.llForFree { r with llForFree := [] } fun c hc p hp => ?_
  have hs := h.suits hp
  have hstate := hs.doomed hc
  exact ⟨hstate, hs.disused hstate⟩

theorem tidy_freeDisused (h : Tidy r) : Tidy r.freeDisused := by
  rw [freeDisused_eq h]
  have hparty : ∀ {d p}, (if d ∈ r.llForFree then none else r.parties d) = some p →
      d ∉ r.llForFree ∧ r.parties d = some p := by
    intro d p hp
    split at hp
    · cases hp
    · rename_i hd
      exact ⟨hd, hp⟩
  have hstays : ∀ {d p}, r.parties d = some p → p.state = .disconnected →
      (if d ∈ r.llForFree then none else r.parties d) = some p := by
    intro d p hp hs
    have hnot : d ∉ r.llForFree := by
      intro hd
      cases hs.symm.trans ((h.suits hp).doomed hd)
    exact (if_neg hnot).trans hp
  have htime : ∀ d ∈ r.expiryList,
      ((if d ∈ r.llForFree then none else r.parties d).elim 0 (·.sessionExpiryTime) : Int) =
        r.expiryTime d := by
    intro d hd
    obtain ⟨p, hp⟩ := h.expiring d hd
    rw [hstays hp ((h.suits hp).expiring hd).1, Registry.expiryTime, hp]
  refine ⟨fun {d p} hd => ?_, fun d hd => ?_, fun d hd => ?_, fun d hd => absurd hd List.not_mem_nil,
    h.expiryNodup, h.delayNodup, h.sorted.imp_of_mem fun {a b} ha hb hle => ?_⟩
  · have hs := h.suits (hparty hd).2
    exact ⟨hs.expiring, hs.delaying, fun hm => absurd hm List.not_mem_nil, hs.disused, hs.pending, hs.undelayed,
      hs.plain, hs.allocated, hs.closed⟩
  · obtain ⟨p, hp⟩ := h.expiring d hd
    exact ⟨p, hstays hp ((h.suits hp).expiring hd).1⟩
  · obtain ⟨p, hp⟩ := h.delaying d hd
    exact ⟨p, hstays hp ((h.suits hp).delaying hd).1⟩
  · show (if a ∈ r.llForFree then none else r.parties a).elim 0 (·.sessionExpiryTime) ≤
      (if b ∈ r.llForFree then none else r.parties b).elim 0 (·.sessionExpiryTime)
    rw [htime a ha, htime b hb]
    exact hle

/-! ### The two checks -/

/-- The session of a client is due to end. -/
def expires (r : Registry) (c : CtxId) : Bool := (r.parties c).any (·.sessionExpiryTime < r.now)

/-- The will of a client is due. -/
def fires (r : Registry) (c : CtxId) : Bool := (r.parties c).any (·.willDelayTime < r.now)

theorem expiryLoop_eq {l : List CtxId} (hl : l.Nodup) (r : Registry) :
    r.expiryLoop l = (l.takeWhile r.expires).foldl (fun r c => r.expire c) r := by
  have hpass : ∀ (l : List CtxId) (r : Registry),
      r.expiryLoop l = Agenda.pass expires expire l r := by
    intro l
    induction l with
    | nil => exact fun r => rfl
    | cons c l ih =>
      intro r
      unfold expiryLoop Agenda.pass
      rw [ih]
      rfl
  rw [hpass]
  refine Agenda.pass_eq (fun c d r hd => ?_) hl r
  have ho := only_expire c r
  unfold expires
  rw [ho.parties d hd, ho.now]

theorem delayLoop_eq {l : List CtxId} (hl : l.Nodup) (r : Registry) :
    r.delayLoop l = (l.takeWhile r.fires).foldl (fun r c => r.fire c) r := by
  have hpass : ∀ (l : List CtxId) (r : Registry),
      r.delayLoop l = Agenda.pass fires fire l r := by
    intro l
    induction l with
    | nil => exact fun r => rfl
    | cons c l ih =>
      intro r
      unfold delayLoop Agenda.pass
      rw [ih]
      rfl
  rw [hpass]
  refine Agenda.pass_eq (fun c d r hd => ?_) hl r
  have ho := only_fire c r
  unfold fires
  rw [ho.parties d hd, ho.now]

/-- The sessions of some clients have ended, and nothing else has happened. -/
structure Ended (l : List CtxId) (r r' : Registry) : Prop where
  tidy : Tidy r'
  expiryList : r'.expiryList = r.expiryList.filter (· ∉ l)
  llForFree : r'.llForFree = l.reverse ++ r.llForFree
  ended : ∀ c ∈ l, ∃ p, r.parties c = some p ∧ r'.parties c = some p.expired
  others : ∀ c, c ∉ l → r'.parties c = r.parties c
  now : r'.now = r.now
  limit : r'.limit = r.limit

theorem ended_foldl (h : Tidy r) {l : List CtxId} (hl : l.Nodup)
    (hsub : ∀ c ∈ l, c ∈ r.expiryList) : Ended l r (l.foldl (fun r c => r.expire c) r) := by
  induction l generalizing r with
  | nil =>
    exact ⟨h, (List.filter_eq_self.mpr fun _ _ => by simp).symm, rfl, fun c hc => (nomatch hc),
      fun _ _ => rfl, rfl, rfl⟩
  | cons c l ih =>
    obtain ⟨hc, hrest⟩ := List.nodup_cons.mp hl
    obtain ⟨hmem, hsub⟩ := List.forall_mem_cons.mp hsub
    obtain ⟨p, hp⟩ := h.expiring c hmem
    have ho := only_expire c r
    have heq := expire_eq hp fun e => nomatch ((h.suits hp).expiring hmem).1.symm.trans e
    have hne : ∀ d ∈ l, d ≠ c := fun d hd e => hc (e ▸ hd)
    have hend := ih (tidy_expire h hmem) hrest fun d hd =>
      (ho.mem_expiryList (hne d hd)).mpr (hsub d hd)
    rw [List.foldl_cons]
    refine ⟨hend.tidy, hend.expiryList.trans ?_, hend.llForFree.trans ?_, fun d hd => ?_,
      fun d hd => ?_, hend.now.trans ho.now, hend.limit.trans ho.limit⟩
    · rw [heq]
      show (r.expiryList.erase c).filter _ = _
      rw [h.expiryNodup.erase_eq_filter, List.filter_filter]
      refine List.filter_congr fun d _ => ?_
      by_cases hd : d = c
      · simp [hd]
      · simp [hd]
    · rw [heq]
      show l.reverse ++ c :: r.llForFree = _
      rw [List.reverse_cons, List.append_assoc]
      rfl
    · rcases List.mem_cons.mp hd with rfl | hd
      · refine ⟨p, hp, (hend.others d hc).trans ?_⟩
        rw [heq]
        exact place_self
      · obtain ⟨q, hq, hq'⟩ := hend.ended d hd
        exact ⟨q, (ho.parties d (hne d hd)).symm.trans hq, hq'⟩
    · obtain ⟨hd, hd'⟩ := not_or.mp (mt List.mem_cons.mpr hd)
      exact (hend.others d hd').trans (ho.parties d hd)

theorem Tidy.expires (h : Tidy r) : ∀ c ∈ r.expiryList,
    r.expires c = decide (r.expiryTime c < r.now) := by
  intro c hc
  obtain ⟨p, hp⟩ := h.expiring c hc
  rw [Registry.expires, Registry.expiryTime, hp]
  rfl

/-- The list is sorted, so nothing that is due stands behind something that is not. -/
theorem Tidy.dueFirst (h : Tidy r) : Agenda.DueFirst r.expires r.expiryList := by
  refine (Agenda.dueFirst_of_sorted h.sorted r.now).imp_of_mem fun {a b} ha hb hdue => ?_
  rw [h.expires a ha, h.expires b hb]
  exact hdue

/-- **A check ends what is due.** -/
theorem ended_expiryCheck (h : Tidy r) (hnow : r.lastExpiryCheck < r.now) :
    Ended (r.expiryList.filter r.expires) r r.expiryCheck ∧ r.expiryCheck.lastExpiryCheck = r.now := by
  have htidy : Tidy { r with lastExpiryCheck := r.now } := h.of_eq rfl rfl rfl rfl rfl rfl
  have hlast : ∀ (l : List CtxId) (r : Registry),
      (l.foldl (fun r c => r.expire c) r).lastExpiryCheck = r.lastExpiryCheck := by
    intro l
    induction l with
    | nil => exact fun r => rfl
    | cons c l ih => exact fun r => (ih _).trans (only_expire c r).lastExpiryCheck
  have hend := ended_foldl htidy (h.expiryNodup.filter r.expires) fun c hc => List.mem_of_mem_filter hc
  have hcheck : r.expiryCheck = (r.expiryList.filter r.expires).foldl (fun r c => r.expire c)
      { r with lastExpiryCheck := r.now } := by
    unfold expiryCheck
    rw [if_neg (not_le.mpr hnow), expiryLoop_eq h.expiryNodup, ← h.dueFirst.takeWhile]
    rfl
  rw [hcheck]
  exact ⟨⟨hend.tidy, hend.expiryList, hend.llForFree, hend.ended, hend.others, hend.now, hend.limit⟩,
    hlast _ _⟩

/-! ### What an event does to the list -/

/-- A session is in the list as it was. -/
def KeptAt (r r' : Registry) (c : CtxId) : Prop :=
  c ∈ r.expiryList ∧ ∃ p q, r.parties c = some p ∧ r'.parties c = some q ∧
    q.sessionExpiryTime = p.sessionExpiryTime ∧ q.sessionExpiryInterval = p.sessionExpiryInterval

/-- A client has lost its connection just now. -/
def EntersAt (r r' : Registry) (c : CtxId) : Prop :=
  ∃ p q, r.parties c = some p ∧ p.state ≠ .disconnected ∧ r'.parties c = some q ∧
    q.sessionExpiryTime = r.deadline q.sessionExpiryInterval

/-- No session is new in the list. -/
def Kept (r r' : Registry) : Prop := ∀ c ∈ r'.expiryList, KeptAt r r' c

theorem Kept.trans {r'' : Registry} (h : Kept r r') (h' : Kept r' r'') : Kept r r'' := by
  intro c hc
  obtain ⟨hc', p', q, hp', hq, htime, hinterval⟩ := h' c hc
  obtain ⟨hc, p, p'', hp, hp'', htime', hinterval'⟩ := h c hc'
  cases hp'.symm.trans hp''
  exact ⟨hc, p, q, hp, hq, htime.trans htime', hinterval.trans hinterval'⟩

theorem Tidy.kept (h : Tidy r) : Kept r r := by
  intro c hc
  obtain ⟨p, hp⟩ := h.expiring c hc
  exact ⟨hc, p, p, hp, hp, rfl, rfl⟩

theorem Tidy.kept_only (h : Tidy r) (ho : Only c r r') (hc : c ∉ r'.expiryList) : Kept r r' := by
  intro d hd
  have hne : d ≠ c := fun e => hc (e ▸ hd)
  have hd := (ho.mem_expiryList hne).mp hd
  obtain ⟨p, hp⟩ := h.expiring d hd
  exact ⟨hd, p, p, hp, (ho.parties d hne).trans hp, rfl, rfl⟩

theorem Ended.kept {l : List CtxId} (h : Tidy r) (hend : Ended l r r') : Kept r r' := by
  intro c hc
  rw [hend.expiryList, List.mem_filter] at hc
  obtain ⟨p, hp⟩ := h.expiring c hc.1
  exact ⟨hc.1, p, p, hp, (hend.others c (of_decide_eq_true hc.2)).trans hp, rfl, rfl⟩

theorem kept_fire (h : Tidy r) (hc : c ∈ r.delayList) : Kept r (r.fire c) := by
  obtain ⟨p, hp⟩ := h.delaying c hc
  have hs := h.suits hp
  have ho := only_fire c r
  have htidy := tidy_fire h hc
  have heq := fire_eq hp fun e => nomatch (hs.delaying hc).1.symm.trans e
  intro d hd
  by_cases hdc : d = c
  · subst hdc
    have hfields := willClear_fields { p with willDelayInterval := 0 }
    have hrest := willClear_rest { p with willDelayInterval := 0 }
    simp only at heq
    by_cases hzero : p.sessionExpiryInterval = 0
    · rw [heq, if_pos hzero] at hd
      exact absurd hzero (hs.expiring hd).2.2.1
    · rw [heq, if_neg hzero] at hd
      refine ⟨hd, p, _, hp, ?_, hrest.2.2, hfields.2.1⟩
      rw [heq, if_neg hzero]
      exact place_self
  · have hd := (ho.mem_expiryList hdc).mp hd
    obtain ⟨q, hq⟩ := h.expiring d hd
    exact ⟨hd, q, q, hq, (ho.parties d hdc).trans hq, rfl, rfl⟩

theorem kept_freeDisused (h : Tidy r) : Kept r r.freeDisused := by
  rw [freeDisused_eq h]
  intro c hc
  obtain ⟨p, hp⟩ := h.expiring c hc
  have hnot : c ∉ r.llForFree := fun hm =>
    nomatch ((h.suits hp).expiring hc).1.symm.trans ((h.suits hp).doomed hm)
  exact ⟨hc, p, p, hp, (if_neg hnot).trans hp, rfl, rfl⟩

theorem entersAt_disconnect {r₁ : Registry} (h : Tidy r₁) (hkept : Kept r r₁)
    (hnow : r₁.now = r.now) (hlimit : r₁.limit = r.limit) (hp : r.parties c = some p)
    (hs : p.state ≠ .disconnected) {d : CtxId} (hd : d ∈ (r₁.disconnect c).expiryList) :
    KeptAt r (r₁.disconnect c) d ∨ EntersAt r (r₁.disconnect c) d := by
  have ho := only_disconnect c r₁
  have htidy := tidy_disconnect h c
  obtain ⟨q, hq⟩ := htidy.expiring d hd
  by_cases hdc : d = c
  · subst hdc
    cases hp₁ : r₁.parties d with
    | none =>
      have hsame : r₁.disconnect d = r₁ := by
        unfold disconnect
        rw [hp₁]
      rw [hsame, hp₁] at hq
      cases hq
    | some p₁ =>
      have hs₁ := h.suits hp₁
      by_cases hgone : p₁.state = .disconnected
      · have hsame : r₁.disconnect d = r₁ := by
          unfold disconnect
          rw [hp₁]
          exact if_pos hgone
        rw [hsame] at hd ⊢
        exact .inl (hkept d hd)
      by_cases hdis : p₁.state = .disused
      · have hsame : r₁.disconnect d = r₁ :=
          disconnect_disused hp₁ hdis (hs₁.disused hdis).1 (hs₁.disused hdis).2.1
            (hs₁.disused hdis).2.2.1
        rw [hsame] at hd ⊢
        exact .inl (hkept d hd)
      obtain ⟨hexpiry, hdelay⟩ := h.notMem hp₁ hgone
      have hdep := departs_disconnect hp₁ hgone hdis hexpiry hdelay hs₁.undelayed hs₁.plain
      refine .inr ⟨p, q, hp, hs, hq, ?_⟩
      generalize r₁.disconnect d = r' at hdep hd hq
      cases hdep with
      | discard => exact absurd hd hexpiry
      | stay => exact absurd hd hexpiry
      | expire =>
        cases place_self.symm.trans hq
        show r₁.deadline p₁.sessionExpiryInterval = r.deadline (p₁.gone r₁.now).sessionExpiryInterval
        rw [(gone_fields r₁.now p₁).2.2.2.2.2.1, deadline, deadline, hnow, hlimit]
  · obtain ⟨hm, x, y, hx, hy, hsame⟩ := hkept d ((ho.mem_expiryList hdc).mp hd)
    exact .inl ⟨hm, x, y, hx, (ho.parties d hdc).trans hy, hsame⟩

/-! ### Events -/

/-- A client that has sent no CONNECT has no id and no will. -/
def Fresh (r : Registry) : Prop :=
  ∀ {c p}, r.parties c = some p → p.state = .new →
    p.id = none ∧ p.will = none ∧ p.removedFromById = false

/-- What an event does. -/
structure Next (r r' : Registry) : Prop where
  tidy : Tidy r'
  fresh : Fresh r'
  enters : ∀ c ∈ r'.expiryList, KeptAt r r' c ∨ EntersAt r r' c
  limit : r'.limit = r.limit

/-- What has been done when a client is about to be disconnected. -/
structure Before (c : CtxId) (r r' : Registry) : Prop where
  tidy : Tidy r'
  kept : Kept r r'
  aged : ∀ {d q}, d ≠ c → r'.parties d = some q → q.state = .new → r.parties d = some q
  now : r'.now = r.now
  limit : r'.limit = r.limit

theorem disconnect_state (hq : (r.disconnect c).parties c = some q) :
    q.state = .disconnected ∨ q.state = .disused := by
  unfold disconnect at hq
  cases hp : r.parties c with
  | none =>
    rw [hp] at hq
    exact nomatch hp.symm.trans hq
  | some p =>
    rw [hp] at hq
    simp only at hq
    split at hq
    · rename_i hs
      cases hp.symm.trans hq
      exact .inl hs
    · rw [modify_self] at hq
      obtain ⟨x, -, rfl⟩ := Option.map_eq_some_iff.mp hq
      unfold Party.setState
      split
      · exact .inl rfl
      · rename_i hs
        exact .inr (not_not.mp hs)

theorem Before.next {r₁ : Registry} (hf : Fresh r) (h : Before c r r₁) (hp : r.parties c = some p)
    (hs : p.state ≠ .disconnected) : Next r (r₁.disconnect c) := by
  have ho := only_disconnect c r₁
  refine ⟨tidy_disconnect h.tidy c, fun {d q} hq hnew => ?_,
    fun d hd => entersAt_disconnect h.tidy h.kept h.now h.limit hp hs hd, ho.limit.trans h.limit⟩
  by_cases hd : d = c
  · subst hd
    rcases disconnect_state hq with hs' | hs'
    · exact nomatch hs'.symm.trans hnew
    · exact nomatch hs'.symm.trans hnew
  · exact hf (h.aged hd ((ho.parties d hd).symm.trans hq) hnew) hnew

/-- Nothing was done. -/
theorem Tidy.before (h : Tidy r) (c : CtxId) : Before c r r :=
  ⟨h, h.kept, fun _ hq _ => hq, rfl, rfl⟩

/-- The client that sent a packet is changed. -/
theorem Tidy.before_modify (h : Tidy r) (hp : r.parties c = some p) (hc : c ∉ r.expiryList)
    (hs : Suits r c (f p)) : Before c r (r.modify c f) := by
  have ho := only_modify c f r
  exact ⟨h.modify hp hc hs, h.kept_only ho hc, fun hd hq _ => (ho.parties _ hd).symm.trans hq, rfl,
    rfl⟩

theorem Tidy.open (h : Tidy r) (hp : r.parties c = some p) (hopen : p.sock ≠ none) :
    p.state ≠ .disconnected ∧ p.state ≠ .disused ∧ c ∉ r.expiryList ∧ c ∉ r.delayList ∧
      c ∉ r.llForFree := by
  have hs := h.suits hp
  have hgone : p.state ≠ .disconnected := fun e => hopen (hs.closed e)
  have hdis : p.state ≠ .disused := fun e => hopen (hs.disused e).1
  exact ⟨hgone, hdis, (h.notMem hp hgone).1, (h.notMem hp hgone).2, fun hm => hdis (hs.doomed hm)⟩

theorem before_refused (h : Tidy r) (hp : r.parties c = some p) (hopen : p.sock ≠ none) :
    Before c r (r.modify c (·.refused)) := by
  obtain ⟨hgone, hdis, hexpiry, hdelay, hfree⟩ := h.open hp hopen
  have hs := h.suits hp
  exact h.before_modify hp hexpiry ⟨fun hm => absurd hm hexpiry, fun hm => absurd hm hdelay,
    fun hm => absurd hm hfree, fun e => absurd e hdis, fun e => absurd e hgone, fun _ => rfl,
    hs.plain, hs.allocated, fun e => absurd e hgone⟩

/-- A DISCONNECT is refused, asks for the will, or clears it. -/
theorem disconnecting_cases (packet : Option (Bool × Option Nat)) (p : Party) :
    p.disconnecting packet = p ∨ ∃ interval,
      p.disconnecting packet =
        { p with sessionExpiryInterval := interval }.setState .disconnectWithWill ∨
      p.disconnecting packet =
        { p with sessionExpiryInterval := interval }.willClear.setState .disconnecting := by
  cases packet with
  | none => exact .inl rfl
  | some packet =>
    obtain ⟨withWill, expiry⟩ := packet
    by_cases h : p.sessionExpiryInterval = 0 ∧
        (if p.protocol = .mqtt5 then expiry else none).any (· ≠ 0) = true
    · exact .inl (if_pos h)
    · refine .inr ⟨(if p.protocol = .mqtt5 then expiry else none).getD p.sessionExpiryInterval, ?_⟩
      cases withWill with
      | true => exact .inl (if_neg h)
      | false => exact .inr (if_neg h)

theorem disconnecting_fields (packet : Option (Bool × Option Nat))
    (hdis : p.state ≠ .disused) (hgone : p.state ≠ .disconnected)
    (hu : p.will = none → p.willDelayInterval = 0) :
    (p.disconnecting packet).state ≠ .disused ∧ (p.disconnecting packet).state ≠ .disconnected ∧
      (p.disconnecting packet).bridged = p.bridged ∧
      ((p.disconnecting packet).will = none → (p.disconnecting packet).willDelayInterval = 0) := by
  rcases disconnecting_cases packet p with h | ⟨interval, h | h⟩
  · rw [h]
    exact ⟨hdis, hgone, rfl, hu⟩
  · rw [h, setState_of_ne (by exact hdis)]
    exact ⟨nofun, nofun, rfl, hu⟩
  · have hstate := (willClear_fields { p with sessionExpiryInterval := interval }).1
    have hrest := willClear_rest { p with sessionExpiryInterval := interval }
    have hclear := willClear_cleared (p := { p with sessionExpiryInterval := interval }) hu
    rw [h, setState_of_ne fun e => hdis (hstate.symm.trans e)]
    exact ⟨nofun, nofun, hrest.2.1, fun _ => hclear.2⟩

theorem before_disconnecting (h : Tidy r) (hp : r.parties c = some p) (hopen : p.sock ≠ none)
    (packet : Option (Bool × Option Nat)) :
    Before c r (r.modify c (·.disconnecting packet)) := by
  obtain ⟨hgone, hdis, hexpiry, hdelay, hfree⟩ := h.open hp hopen
  have hs := h.suits hp
  obtain ⟨hdis, hgone, hplain, hu⟩ := disconnecting_fields packet hdis hgone hs.undelayed
  exact h.before_modify hp hexpiry ⟨fun hm => absurd hm hexpiry, fun hm => absurd hm hdelay,
    fun hm => absurd hm hfree, fun e => absurd e hdis, fun e => absurd e hgone, hu,
    hplain.trans hs.plain, hs.allocated, fun e => absurd e hgone⟩

theorem before_connectPacket (h : Tidy r) (hp : r.parties c = some p) (hopen : p.sock ≠ none)
    (packet : ConnectPacket) (interval : Nat) (hwill : p.will = none) :
    Before c r (r.modify c (·.connect packet interval)) := by
  obtain ⟨hgone, hdis, hexpiry, hdelay, hfree⟩ := h.open hp hopen
  have hs := h.suits hp
  refine h.before_modify hp hexpiry ⟨fun hm => absurd hm hexpiry, fun hm => absurd hm hdelay,
    fun hm => absurd hm hfree, fun e => absurd e hdis, fun e => absurd e hgone, fun e => ?_,
    hs.plain, hs.allocated, fun e => absurd e hgone⟩
  have hnone : packet.will = none := e
  show (if packet.will.isSome = true then _ else p.willDelayInterval) = 0
  rw [hnone]
  exact hs.undelayed hwill

theorem tidy_setActive (h : Tidy r) (hp : r.parties c = some p) (hgone : p.state ≠ .disconnected) :
    Tidy (r.modify c (·.setState .active)) := by
  have hs := h.suits hp
  obtain ⟨hexpiry, hdelay⟩ := h.notMem hp hgone
  refine h.modify hp hexpiry ?_
  by_cases hdis : p.state = .disused
  · rw [show p.setState .active = p from if_neg (not_not.mpr hdis)]
    exact hs
  · rw [setState_of_ne hdis]
    exact ⟨fun hm => absurd hm hexpiry, fun hm => absurd hm hdelay,
      fun hm => absurd (hs.doomed hm) hdis, nofun, nofun, hs.undelayed, hs.plain, hs.allocated, nofun⟩

theorem before_takeOver {o : Option CtxId} (h : Tidy r) (hp : r.parties c = some p)
    (hgone : p.state ≠ .disconnected) :
    Before c r (o.elim r (r.takeOver · c)) ∧
      ∃ q, (o.elim r (r.takeOver · c)).parties c = some q ∧ q.state ≠ .disconnected := by
  have hsame : Before c r r ∧ ∃ q, r.parties c = some q ∧ q.state ≠ .disconnected :=
    ⟨h.before c, p, hp, hgone⟩
  cases o with
  | none => exact hsame
  | some found =>
    show Before c r (r.takeOver found c) ∧ ∃ q, (r.takeOver found c).parties c = some q ∧ _
    cases hfound : r.parties found with
    | none =>
      have hnone : r.takeOver found c = r := by
        unfold takeOver
        rw [hfound]
      rw [hnone]
      exact hsame
    | some old =>
      obtain ⟨htidy, ho, q, hq, hdis⟩ := tidy_takeOver h hfound hp
      have hnot : found ∉ (r.takeOver found c).expiryList := fun hm =>
        nomatch hdis.symm.trans ((htidy.suits hq).expiring hm).1
      refine ⟨⟨htidy, h.kept_only ho hnot, fun {d x} _ hx hnew => ?_, ho.now, ho.limit⟩, ?_⟩
      · have hne : d ≠ found := by
          rintro rfl
          cases hq.symm.trans hx
          exact nomatch hdis.symm.trans hnew
        exact (ho.parties d hne).symm.trans hx
      · by_cases hcf : c = found
        · subst hcf
          exact ⟨q, hq, fun e => nomatch hdis.symm.trans e⟩
        · exact ⟨p, (ho.parties c hcf).trans hp, hgone⟩

theorem before_connect (h : Tidy r) (hf : Fresh r) (hp : r.parties c = some p)
    (hopen : p.sock ≠ none) (o : Outcome) (packet : ConnectPacket) :
    Before c r (r.connect o c packet) ∧ ∃ q, (r.connect o c packet).parties c = some q ∧
      (o.active = true → q.state ≠ .new) := by
  unfold connect
  rw [hp, Option.any_some]
  by_cases hnew : p.state = .new
  · have hgone : p.state ≠ .disconnected := fun e => nomatch hnew.symm.trans e
    have hread := before_connectPacket h hp hopen packet o.interval (hf hp hnew).2.1
    have hp₀ : (r.modify c (·.connect packet o.interval)).parties c =
        some (p.connect packet o.interval) := by rw [modify_self, hp, Option.map_some]
    rw [if_pos (decide_eq_true hnew)]
    simp only
    generalize hr₀ : r.modify c (·.connect packet o.interval) = r₀ at hread hp₀
    obtain ⟨hover, q, hq, hq'⟩ := before_takeOver (o := r₀.contextsById packet.clientId) hread.tidy hp₀
      hgone
    generalize (r₀.contextsById packet.clientId).elim r₀ (r₀.takeOver · c) = r₁ at hover hq
    have hids : Tidy { r₁ with
        contextsById := Function.update r₁.contextsById packet.clientId (some c) } :=
      hover.tidy.of_eq rfl rfl rfl rfl rfl rfl
    have hkept := hread.kept.trans hover.kept
    have haged : ∀ {d x}, d ≠ c → r₁.parties d = some x → x.state = .new → r.parties d = some x :=
      fun hd hx hs => hread.aged hd (hover.aged hd hx hs) hs
    split
    · rename_i hactive
      have ho := only_modify c (·.setState .active)
        { r₁ with contextsById := Function.update r₁.contextsById packet.clientId (some c) }
      refine ⟨⟨tidy_setActive hids hq hq', fun d hd => ?_, fun hd hx hs =>
        haged hd ((ho.parties _ hd).symm.trans hx) hs, hover.now.trans hread.now,
        hover.limit.trans hread.limit⟩, q.setState .active, ?_, fun _ hs => ?_⟩
      · have hne : d ≠ c := fun e => (hids.notMem hq hq').1 (e ▸ hd)
        obtain ⟨hm, x, y, hx, hy, htime⟩ := hkept d hd
        exact ⟨hm, x, y, hx, (ho.parties d hne).trans hy, htime⟩
      · rw [modify_self]
        exact congrArg (Option.map _) hq
      · unfold Party.setState at hs
        split at hs
        · cases hs
        · rename_i hdis
          exact nomatch (not_not.mp hdis).symm.trans hs
    · rename_i hactive
      exact ⟨⟨hids, hkept, haged, hover.now.trans hread.now, hover.limit.trans hread.limit⟩, q, hq,
        fun ha => absurd ha hactive⟩
  · rw [if_neg (by simpa using hnew)]
    refine ⟨before_refused h hp hopen, p.refused, ?_, fun _ => hnew⟩
    rw [modify_self, hp, Option.map_some]

theorem Kept.next (h : Tidy r') (hf : Fresh r') (hk : Kept r r') (hlimit : r'.limit = r.limit) :
    Next r r' := ⟨h, hf, fun c hc => .inl (hk c hc), hlimit⟩

theorem next_afterError (h : Tidy r) (hf : Fresh r) (hp : r.parties c = some p)
    (hopen : p.sock ≠ none) (fail : Bool) : Next r (r.afterError fail c) := by
  unfold afterError
  split
  · exact (h.before c).next hf hp (h.open hp hopen).1
  · exact h.kept.next h hf rfl

theorem next_connect (h : Tidy r) (hf : Fresh r) (hp : r.parties c = some p)
    (hopen : p.sock ≠ none) {o : Outcome} (ho : o.active = true ∨ o.fail = true)
    (packet : ConnectPacket) : Next r ((r.connect o c packet).afterError o.fail c) := by
  obtain ⟨hbefore, q, hq, hnew⟩ := before_connect h hf hp hopen o packet
  unfold afterError
  split
  · exact hbefore.next hf hp (h.open hp hopen).1
  · rename_i hfail
    refine hbefore.kept.next hbefore.tidy (fun {d x} hx hs => ?_) hbefore.limit
    by_cases hd : d = c
    · subst hd
      cases hq.symm.trans hx
      exact absurd hs (hnew (ho.resolve_right hfail))
    · exact hf (hbefore.aged hd hx hs) hs

theorem next_accept (h : Tidy r) (hf : Fresh r) (sock : Nat) :
    let p : Party := party { Context.init Config.init (some sock) with mountPoint := none }
    Next r { r with parties := Function.update r.parties r.nextContext (some p)
                    nextContext := r.nextContext + 1 } := by
  intro p
  have hfresh : ∀ {c q}, r.parties c = some q → c ≠ r.nextContext := fun hq e =>
    absurd (h.suits hq).allocated (e ▸ lt_irrefl _)
  have hold : ∀ {c q}, r.parties c = some q →
      Function.update r.parties r.nextContext (some p) c = some q := by
    intro c q hq
    rw [Function.update_of_ne (hfresh hq), hq]
  have hcases : ∀ {c q}, Function.update r.parties r.nextContext (some p) c = some q →
      c = r.nextContext ∧ q = p ∨ r.parties c = some q := by
    intro c q hq
    rw [Function.update_apply] at hq
    split at hq
    · rename_i hc
      exact .inl ⟨hc, (Option.some.inj hq).symm⟩
    · exact .inr hq
  have htime : ∀ c ∈ r.expiryList, ((Function.update r.parties r.nextContext (some p) c).elim 0
      (·.sessionExpiryTime) : Int) = r.expiryTime c := by
    intro c hc
    obtain ⟨q, hq⟩ := h.expiring c hc
    rw [hold hq, Registry.expiryTime, hq]
  refine ⟨⟨fun {c q} hq => ?_, fun c hc => ?_, fun c hc => ?_, fun c hc => ?_, h.expiryNodup,
    h.delayNodup, h.sorted.imp_of_mem fun {a b} ha hb hle => ?_⟩, fun {c q} hq hs => ?_,
    fun c hc => ?_, rfl⟩
  · rcases hcases hq with ⟨rfl, rfl⟩ | hq
    · refine ⟨fun hm => ?_, fun hm => ?_, fun hm => ?_, fun h => (by cases h),
        fun h => (by cases h), fun _ => rfl, rfl, Nat.lt_succ_self _, fun h => (by cases h)⟩
      · obtain ⟨q, hq⟩ := h.expiring _ hm
        exact absurd rfl (hfresh hq)
      · obtain ⟨q, hq⟩ := h.delaying _ hm
        exact absurd rfl (hfresh hq)
      · exact absurd (h.doomed _ hm) (lt_irrefl _)
    · have hs := h.suits hq
      exact ⟨hs.expiring, hs.delaying, hs.doomed, hs.disused, hs.pending, hs.undelayed, hs.plain,
        Nat.lt_succ_of_lt hs.allocated, hs.closed⟩
  · obtain ⟨q, hq⟩ := h.expiring c hc
    exact ⟨q, hold hq⟩
  · obtain ⟨q, hq⟩ := h.delaying c hc
    exact ⟨q, hold hq⟩
  · exact Nat.lt_succ_of_lt (h.doomed c hc)
  · show (Function.update r.parties r.nextContext (some p) a).elim 0 (·.sessionExpiryTime) ≤
      (Function.update r.parties r.nextContext (some p) b).elim 0 (·.sessionExpiryTime)
    rw [htime a ha, htime b hb]
    exact hle
  · rcases hcases hq with ⟨-, rfl⟩ | hq
    · exact ⟨rfl, rfl, rfl⟩
    · exact hf hq hs
  · obtain ⟨q, hq⟩ := h.expiring c hc
    exact .inl ⟨hc, q, q, hq, hold hq, rfl, rfl⟩

theorem next_expiryCheck (h : Tidy r) (hf : Fresh r) : Next r r.expiryCheck := by
  by_cases hnow : r.lastExpiryCheck < r.now
  · have hend := (ended_expiryCheck h hnow).1
    refine (hend.kept h).next hend.tidy (fun {c q} hq hs => ?_) hend.limit
    by_cases hc : c ∈ r.expiryList.filter r.expires
    · obtain ⟨p, -, hp⟩ := hend.ended c hc
      cases hp.symm.trans hq
      cases hs
    · exact hf ((hend.others c hc).symm.trans hq) hs
  · have hsame : r.expiryCheck = r := if_pos (not_lt.mp hnow)
    rw [hsame]
    exact h.kept.next h hf rfl

theorem fresh_fire (h : Tidy r) (hf : Fresh r) (hc : c ∈ r.delayList) : Fresh (r.fire c) := by
  obtain ⟨p, hp⟩ := h.delaying c hc
  have hstate := ((h.suits hp).delaying hc).1
  have heq := fire_eq hp fun e => nomatch hstate.symm.trans e
  intro d q hq hs
  by_cases hd : d = c
  · subst hd
    simp only at heq
    rw [heq] at hq
    split at hq
    · cases place_self.symm.trans hq
      cases hs
    · cases place_self.symm.trans hq
      have hsame := (willClear_fields { p with willDelayInterval := 0 }).1
      exact nomatch hstate.symm.trans (hsame.symm.trans hs)
  · exact hf (((only_fire c r).parties d hd).symm.trans hq) hs

theorem next_delayCheck (h : Tidy r) (hf : Fresh r) : Next r r.delayCheck := by
  have hfold : ∀ (l : List CtxId) (r : Registry), Tidy r → Fresh r → l.Nodup →
      (∀ c ∈ l, c ∈ r.delayList) →
      let r' := l.foldl (fun r c => r.fire c) r
      Tidy r' ∧ Fresh r' ∧ Kept r r' ∧ r'.limit = r.limit := by
    intro l
    induction l with
    | nil => exact fun r h hf _ _ => ⟨h, hf, h.kept, rfl⟩
    | cons c l ih =>
      intro r h hf hl hsub
      obtain ⟨hc, hrest⟩ := List.nodup_cons.mp hl
      obtain ⟨hmem, hsub⟩ := List.forall_mem_cons.mp hsub
      have ho := only_fire c r
      obtain ⟨htidy, hfresh, hkept, hlimit⟩ := ih (r.fire c) (tidy_fire h hmem) (fresh_fire h hf hmem)
        hrest fun d hd => (ho.mem_delayList fun e => hc (e ▸ hd)).mpr (hsub d hd)
      exact ⟨htidy, hfresh, (kept_fire h hmem).trans hkept, hlimit.trans ho.limit⟩
  unfold delayCheck
  split
  · exact h.kept.next h hf rfl
  · have htidy : Tidy { r with lastDelayCheck := r.now } := h.of_eq rfl rfl rfl rfl rfl rfl
    rw [delayLoop_eq h.delayNodup]
    obtain ⟨htidy, hfresh, hkept, hlimit⟩ := hfold (r.delayList.takeWhile _) _ htidy hf
      (h.delayNodup.sublist (List.takeWhile_sublist _)) fun c hc => List.takeWhile_subset _ hc
    exact hkept.next htidy hfresh hlimit

theorem next_freeDisused (h : Tidy r) (hf : Fresh r) : Next r r.freeDisused := by
  refine (kept_freeDisused h).next (tidy_freeDisused h) (fun {c p} hp hs => ?_) ?_
  · rw [freeDisused_eq h] at hp
    simp only at hp
    split at hp
    · cases hp
    · exact hf hp hs
  · rw [freeDisused_eq h]

/-- **Every event keeps the registry tidy.** -/
theorem next_exec (h : Tidy r) (hf : Fresh r) {o : Outcome} (ho : o.active = true ∨ o.fail = true)
    {e : Event} (hsource : ∀ c, e.source = some c → ∃ p, r.parties c = some p ∧ p.sock ≠ none) :
    Next r (r.exec o e) := by
  cases e with
  | accept sock mountPoint => exact next_accept h hf sock
  | connect c maxQos packet =>
    obtain ⟨p, hp, hopen⟩ := hsource c rfl
    exact next_connect h hf hp hopen ho packet
  | refuse c =>
    obtain ⟨p, hp, hopen⟩ := hsource c rfl
    exact (before_refused h hp hopen).next hf hp (h.open hp hopen).1
  | disconnect c packet =>
    obtain ⟨p, hp, hopen⟩ := hsource c rfl
    exact (before_disconnecting h hp hopen packet).next hf hp (h.open hp hopen).1
  | tick nowS nowRealS =>
    exact ⟨h.of_eq rfl rfl rfl rfl rfl rfl, hf, fun c hc => .inl (h.kept c hc), rfl⟩
  | expiryCheck => exact next_expiryCheck h hf
  | delayCheck => exact next_delayCheck h hf
  | freeDisused => exact next_freeDisused h hf
  | sysTree topic payload => exact h.kept.next h hf rfl
  | publish c packet =>
    obtain ⟨p, hp, hopen⟩ := hsource c rfl
    exact next_afterError h hf hp hopen o.fail
  | pubrel c packet =>
    obtain ⟨p, hp, hopen⟩ := hsource c rfl
    exact next_afterError h hf hp hopen o.fail
  | ack c type packet =>
    obtain ⟨p, hp, hopen⟩ := hsource c rfl
    exact next_afterError h hf hp hopen o.fail
  | pubrec c packet =>
    obtain ⟨p, hp, hopen⟩ := hsource c rfl
    exact next_afterError h hf hp hopen o.fail
  | subscribe c packet =>
    obtain ⟨p, hp, hopen⟩ := hsource c rfl
    exact next_afterError h hf hp hopen o.fail
  | unsubscribe c packet =>
    obtain ⟨p, hp, hopen⟩ := hsource c rfl
    exact next_afterError h hf hp hopen o.fail
  | write c =>
    obtain ⟨p, hp, hopen⟩ := hsource c rfl
    exact next_afterError h hf hp hopen o.fail

end Tidy

end Registry

end AdaptiveMqtt.Broker
