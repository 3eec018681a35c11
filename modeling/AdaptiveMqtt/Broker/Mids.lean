import AdaptiveMqtt.Broker.Unsent

/-!
# Packet identifiers

`mosquitto__mid_generate` counts from 1 to 65535 and starts again, whatever messages the client
still holds. Their mids differ as long as the next one is free whenever a message is placed.
-/

namespace AdaptiveMqtt.Broker

open Db

/-! ## The counter -/

/-- The mid after `last_mid`. -/
def nextMid (lastMid : UInt16) : UInt16 := if lastMid + 1 = 0 then 1 else lastMid + 1

theorem toNat_nextMid (x : UInt16) : (nextMid x).toNat = x.toNat % 65535 + 1 := by
  have hlt := x.toNat_lt
  have hsum : (x + 1).toNat = (x.toNat + 1) % 65536 := UInt16.toNat_add x 1
  unfold nextMid
  split
  · rename_i hzero
    rw [hzero] at hsum
    have hz : (x.toNat + 1) % 65536 = 0 := hsum.symm
    show 1 = _
    omega
  · rename_i hpos
    have hne : (x + 1).toNat ≠ 0 := fun h => hpos (UInt16.toNat_inj.mp h)
    omega

theorem nextMid_ne_zero (x : UInt16) : nextMid x ≠ 0 := by
  intro h
  have hnat := toNat_nextMid x
  rw [h] at hnat
  exact absurd hnat.symm (Nat.succ_ne_zero _)

theorem toNat_nextMid_iterate (k : Nat) (x : UInt16) :
    (nextMid^[k + 1] x).toNat = (x.toNat + k) % 65535 + 1 := by
  induction k with
  | zero => exact toNat_nextMid x
  | succ k ih =>
    rw [Function.iterate_succ_apply', toNat_nextMid, ih]
    omega

/-- The counter comes back to a mid after 65535 others, and not before. -/
theorem nextMid_iterate_ne {k : Nat} {x : UInt16} (hx : x ≠ 0) (hk : k < 65534) :
    nextMid^[k + 1] x ≠ x := by
  intro h
  have hnat := toNat_nextMid_iterate k x
  have hpos : x.toNat ≠ 0 := fun h => hx (UInt16.toNat_inj.mp h)
  have hlt := x.toNat_lt
  rw [h] at hnat
  omega

/-! ## Messages that are queued -/

/-- What `subs__send`, `retain__process` and the messages of plugins do for a client: a new mid,
but for QoS 0, and `db__message_insert`. -/
def queueMessage (env : Env) (qos : Qos) (retain : Bool) (stored : MsgStore)
    (properties : List Property) (update : Bool) (m : Machine) : Rc × Machine :=
  let r := midFor qos m
  messageInsert env.net r.1 .mdOut qos retain stored properties update r.2

theorem subsSend_queues (env : Env) (topic : Bytes) (qos : Qos) (retain : Bool)
    (stored : MsgStore) (leaf : Sub.SubLeaf) (b : State) :
    (subsSend env topic qos retain stored leaf b).2 = b ∨ ∃ qos' retain' properties,
      (subsSend env topic qos retain stored leaf b).2 =
        (b.onClient leaf.context (queueMessage env qos' retain' stored properties true)).2 := by
  unfold subsSend
  split
  · exact .inl rfl
  · simp only
    split
    · exact .inl rfl
    · split
      · exact .inr ⟨_, _, _, rfl⟩
      · exact .inl rfl

theorem retainProcess_queues (env : Env) (c : CtxId) (subQos : Qos) (identifier : Nat)
    (branch : Sub.Path) (b : State) :
    (retainProcess env c subQos identifier branch b).2 = b ∨
      (retainProcess env c subQos identifier branch b).2 = setRetained branch none b ∨
      ∃ retained qos properties, (b.retains.get branch).bind (·.retained) = some retained ∧
        (retainProcess env c subQos identifier branch b).2 =
          (b.onClient c (queueMessage env qos true retained properties false)).2 := by
  unfold retainProcess
  split
  · rename_i retained ctx hretained hget
    simp only
    split
    · exact .inr (.inl rfl)
    · generalize (if b.db.config.checkRetainSource = true ∧ retained.origin ≠ .moBroker then
        env.aclSource retained else Rc.success) = rc'
      split
      · exact .inl rfl
      · split
        · exact .inl rfl
        · split
          · exact .inl rfl
          · split
            · exact .inl rfl
            · exact .inr (.inr ⟨retained, _, _, hretained, rfl⟩)
  · exact .inl rfl

/-- What happens to a client: a message is queued for it, a mid is generated for a packet of
another kind, or something of its life that generates none. -/
inductive Service where
  | queue (qos : Qos) (retain : Bool) (stored : MsgStore) (properties : List Property)
    (update : Bool)
  | mid
  | life (e : Life)

/-- The mids of the messages of QoS 1 and 2. -/
def midsOf (l : List ClientMsg) : List UInt16 :=
  (l.filter fun a => decide (a.qos ≠ .q0)).map (·.mid)

/-- Messages come in with `Service.queue` only, and nothing else counts the mids on. -/
def Life.Steady (m : Machine) : Life → Prop
  | .traffic (.insert _ _ _ _ _ _) => False
  | .traffic (.between _ ctx) => ctx.lastMid = m.ctx.lastMid
  | _ => True

namespace Service

def exec (env : Env) (m : Machine) : Service → Machine
  | queue qos retain stored properties update =>
    (queueMessage env qos retain stored properties update m).2
  | mid => (midGenerate m).2
  | life e => e.exec env m

def Sane (m : Machine) : Service → Prop
  | life e => e.Sane m ∧ e.Steady m
  | _ => True

/-- The next mid is not that of a message held at QoS 1 or 2, if it is for a message that
`db__message_insert` takes. -/
def Spares (m : Machine) : Service → Prop
  | queue qos retain stored _ _ => qos ≠ .q0 → ∀ id state rc m₁, m.ctx.id = some id →
      insertRefused .mdOut qos retain stored id (midFor qos m).2 = none →
      insertState .mdOut qos stored (midFor qos m).2 = (.ok (state, rc), m₁) →
      nextMid m.ctx.lastMid ∉ midsOf m.ctx.msgsOut.all
  | _ => True

end Service

/-- The machines that events allowed by `ok` lead to from `m₀`. -/
inductive Serves (ok : Machine → Service → Prop) (m₀ : Machine) : Machine → Prop where
  | start : Serves ok m₀ m₀
  | next {m : Machine} (h : Serves ok m₀ m) (env : Env) (e : Service) (sane : e.Sane m)
    (hok : ok m e) : Serves ok m₀ (e.exec env m)

theorem Serves.mono {ok ok' : Machine → Service → Prop} {m₀ m : Machine} (h : Serves ok m₀ m)
    (himp : ∀ m e, ok m e → ok' m e) : Serves ok' m₀ m := by
  induction h with
  | start => exact .start
  | next _ env e hsane hok ih => exact ih.next env e hsane (himp _ e hok)

/-! ## Messages that leave -/

/-- Messages may leave the lists, none comes in, and no mid is generated. -/
structure Loses (m m' : Machine) : Prop where
  nextMsg : m.db.nextMsg ≤ m'.db.nextMsg
  keys : (m'.ctx.msgsOut.all.map ClientMsg.key).Subperm (m.ctx.msgsOut.all.map ClientMsg.key)
  lastMid : m'.ctx.lastMid = m.ctx.lastMid

/-- The rules under which nothing is placed. -/
def unplacing (net : Net) : Rules :=
  { net, exact := false, slow := true, live := fun _ => False, touch := fun _ => True }

section Loses

variable {env : Env} {net : Net} {m m' m'' : Machine}

theorem Loses.refl (m : Machine) : Loses m m := ⟨le_rfl, List.Subperm.refl _, rfl⟩

theorem Loses.trans (h : Loses m m') (h' : Loses m' m'') : Loses m m'' :=
  ⟨h.nextMsg.trans h'.nextMsg, h'.keys.trans h.keys, h'.lastMid.trans h.lastMid⟩

theorem Loses.sound (h : Loses m m') (hs : Sound .mdOut m) : Sound .mdOut m' :=
  sound_of_perm hs h.nextMsg h.keys

/-- The outgoing lists stay as they are. -/
theorem Loses.of_eq (hnext : m'.db.nextMsg = m.db.nextMsg)
    (hmsgs : m'.ctx.msgsOut = m.ctx.msgsOut) (hmid : m'.ctx.lastMid = m.ctx.lastMid) :
    Loses m m' :=
  ⟨hnext.ge, hmsgs ▸ List.Subperm.refl _, hmid⟩

theorem loses_micro (h : Micro (unplacing net) m m') : Loses m m' := by
  have hmid : m'.ctx.lastMid = m.ctx.lastMid :=
    Context.of_core (·.lastMid) (fun _ => rfl) (core_micro h).2
  cases h with
  | frame hf => exact .of_eq hf.nextMsg hf.msgsOut hmid
  | publish p hp => exact .of_eq rfl rfl hmid
  | command c => exact .of_eq rfl rfl hmid
  | shuffle dir hdir hsh =>
    cases dir with
    | mdIn => exact .of_eq rfl rfl hmid
    | mdOut => exact ⟨le_rfl, hsh.perm.subperm, hmid⟩
  | place dir hdir hid hlive haddr hmode hexact => exact hlive.elim
  | @removeOut item e hdir hmem he hexact =>
    exact ⟨(refDec_nextMsg _ _).ge, (remove_key m.ctx.msgsOut item).subperm, hmid⟩
  | removeIn hdir hmem => exact .of_eq (refDec_nextMsg _ _) rfl hmid

theorem loses_steps (h : Steps (unplacing net) m m') : Loses m m' := by
  induction h with
  | refl => exact .refl m
  | tail _ hm ih => exact ih.trans (loses_micro hm)

theorem ready_unplacing (hs : Sound .mdOut m) (net : Net) : Ready (unplacing net) m :=
  ⟨hs, fun hx => absurd hx Bool.false_ne_true⟩

theorem loses_traffic {t : Traffic} (hs : Sound .mdOut m) (hsteady : (Life.traffic t).Steady m)
    (net : Net) : Loses m (t.exec net m) := by
  have hr := ready_unplacing hs net
  cases t with
  | insert mid qos retain stored properties update => exact False.elim hsteady
  | writeQueuedOut => exact loses_steps (steps_messageWriteQueuedOut (R := unplacing net) trivial m)
  | writeStorageOut =>
    exact loses_steps (steps_messageWriteStorageOut (R := unplacing net) trivial m)
  | writeInflightOutLatest => exact loses_steps (steps_messageWriteInflightOutLatest trivial hr)
  | writeInflightOutAll => exact loses_steps (steps_messageWriteInflightOutAll trivial hr)
  | ack type p => exact loses_steps (steps_handlePubackcomp trivial hr type p (nomatch ·))
  | pubrec p => exact loses_steps (steps_handlePubrec trivial hr p)
  | between db ctx => exact ⟨Nat.le_add_right _ _, List.Subperm.refl _, hsteady⟩

theorem loses_checkAcl (env : Env) (m : Machine) : Loses m (connectionCheckAcl env m) := by
  have hloop : ∀ (dir : Direction) (ctx : Context) (l : List ClientMsg) (m : Machine),
      (checkAclLoop env dir ctx l m).2.ctx.lastMid = m.ctx.lastMid := by
    intro dir ctx l
    induction l with
    | nil => exact fun m => rfl
    | cons msg rest ih =>
      intro m
      unfold checkAclLoop
      simp only
      generalize (if msg.direction = .mdOut then Access.read else .write) = access
      split
      · refine (ih (dropRef dir msg m)).trans ?_
        unfold dropRef
        simp only
        split <;> rfl
      · exact ih m
  have hset : ∀ (dir : Direction) (f : MsgData → MsgData) (m : Machine),
      (m.onMsgs dir f).ctx.lastMid = m.ctx.lastMid := by
    intro dir f m
    cases dir <;> rfl
  obtain ⟨hin, hqueued, hstorage, ha⟩ := connectionCheckAcl_spec env m
  refine ⟨ha.nextMsg, (List.Sublist.map _ ?_).subperm, ?_⟩
  · exact (hin.append hqueued).append (hstorage ▸ List.Sublist.refl _)
  · unfold connectionCheckAcl
    simp only [hset, hloop]

theorem loses_connectDone (hs : Sound .mdOut m) (connectAck : UInt8) :
    Loses m (connectDone env connectAck m).2 := by
  unfold connectDone
  simp only
  generalize decide (m.db.config.maxKeepalive ≠ 0 ∧
    (m.ctx.keepalive > m.db.config.maxKeepalive ∨ m.ctx.keepalive = 0)) = refused
  generalize hkept : (if refused = true then
    { m with ctx := { m.ctx with keepalive := m.db.config.maxKeepalive } } else m) = kept
  have hloses : Loses m kept := by
    rw [← hkept]
    split
    · exact .of_eq rfl rfl rfl
    · exact .refl m
  split
  · exact hloses.trans (.of_eq rfl rfl rfl)
  generalize hr : sendCommand env.net (.connack connectAck 0)
    { kept with ctx := kept.ctx.setState .active } = r
  have hsent : Loses m r.2 := by
    have hstate : Loses kept { kept with ctx := kept.ctx.setState .active } := by
      unfold Context.setState
      split
      · exact .of_eq rfl rfl rfl
      · exact .refl kept
    rw [← hr]
    exact (hloses.trans hstate).trans (.of_eq rfl rfl rfl)
  split
  · exact hsent
  · have hqueued := steps_messageWriteQueuedOut (R := unplacing env.net) trivial r.2
    split
    · exact hsent.trans (loses_steps hqueued)
    · have hready := (ready_unplacing (hsent.sound hs) env.net).steps hqueued
      have hall := hqueued.trans (steps_messageWriteInflightOutAll trivial hready)
      exact hsent.trans (loses_steps hall)

theorem loses_life {e : Life} (hsteady : e.Steady m) (hs : Sound .mdOut m)
    (htake : ∀ fresh, e ≠ .takeOver fresh) : Loses m (e.exec env m) := by
  cases e with
  | traffic t => exact loses_traffic hs hsteady env.net
  | takeOver fresh => exact absurd rfl (htake fresh)
  | checkAcl => exact loses_checkAcl env m
  | connectDone connectAck => exact loses_connectDone hs connectAck

/-- A take-over hands the lists over, and nothing comes in otherwise. -/
theorem life_cases {e : Life} (hsane : (Service.life e).Sane m) (hs : Sound .mdOut m) :
    (∃ fresh, e = .takeOver fresh ∧ (Life.takeOver fresh).Sane m) ∨
      (∀ fresh, e ≠ .takeOver fresh) ∧ Loses m (e.exec env m) := by
  by_cases htake : ∃ fresh, e = .takeOver fresh
  · obtain ⟨fresh, rfl⟩ := htake
    exact .inl ⟨fresh, rfl, hsane.1⟩
  · have hother : ∀ fresh, e ≠ .takeOver fresh := fun fresh he => htake ⟨fresh, he⟩
    exact .inr ⟨hother, loses_life hsane.2 hs hother⟩

end Loses

/-! ## A message that comes in -/

section Insert

variable {env : Env} {net : Net} {m : Machine} {mid : UInt16} {qos : Qos} {retain update : Bool}
  {stored : MsgStore} {properties : List Property}

theorem steps_insert (hs : Sound .mdOut m) : Steps (loose net) m
    (messageInsert net mid .mdOut qos retain stored properties update m).2 :=
  steps_messageInsert trivial ⟨hs, fun hx => absurd hx Bool.false_ne_true⟩ trivial mid qos retain
    properties update (nomatch ·)

theorem midFor_eq_next (hq : qos ≠ .q0) (m : Machine) :
    midFor qos m = (nextMid m.ctx.lastMid,
      { m with ctx := { m.ctx with lastMid := nextMid m.ctx.lastMid } }) := if_pos hq

theorem midFor_eq_zero (hq : qos = .q0) (m : Machine) : midFor qos m = (0, m) :=
  if_neg (not_not.mpr hq)

theorem queueMessage_sound (hs : Sound .mdOut m) :
    Sound .mdOut (queueMessage env qos retain stored properties update m).2 ∧
      (queueMessage env qos retain stored properties update m).2.ctx.lastMid =
        if qos ≠ .q0 then nextMid m.ctx.lastMid else m.ctx.lastMid := by
  have hinsert : ∀ (mid : UInt16) {m : Machine}, Sound .mdOut m →
      let m' := (messageInsert env.net mid .mdOut qos retain stored properties update m).2
      Sound .mdOut m' ∧ m'.ctx.lastMid = m.ctx.lastMid := by
    intro mid m hs m'
    have hsteps : Steps (loose env.net) m m' := steps_insert hs
    exact ⟨sound_steps hs hsteps, Context.of_core (·.lastMid) (fun _ => rfl) (core_steps hsteps).2⟩
  unfold queueMessage
  by_cases hq : qos = .q0
  · rw [midFor_eq_zero hq, if_neg (not_not.mpr hq)]
    exact hinsert 0 hs
  · rw [midFor_eq_next hq, if_pos hq]
    exact hinsert (nextMid m.ctx.lastMid)
      (m := { m with ctx := { m.ctx with lastMid := nextMid m.ctx.lastMid } }) ⟨hs.nodup, hs.fresh⟩

end Insert

theorem sound_service {env : Env} {m : Machine} {e : Service} (hsane : e.Sane m)
    (hs : Sound .mdOut m) : Sound .mdOut (e.exec env m) := by
  cases e with
  | queue qos retain stored properties update => exact (queueMessage_sound hs).1
  | mid => exact ⟨hs.nodup, hs.fresh⟩
  | life e =>
    rcases @life_cases env m e hsane hs with ⟨fresh, rfl, htake⟩ | ⟨-, hloses⟩
    · exact sound_of_perm hs (around_handOver m.ctx ⟨m.db, fresh⟩).nextMsg (takeOver_keys htake.2)
    · exact hloses.sound hs

/-! ## Mids of their own -/

/-- The messages of QoS 1 and 2 have mids, and each another one. -/
structure Numbered (l : List ClientMsg) : Prop where
  nodup : (midsOf l).Nodup
  nonzero : 0 ∉ midsOf l

section Numbered

variable {l l' : List ClientMsg} {env : Env} {m : Machine}

theorem midsOf_key (l : List ClientMsg) : midsOf (l.map ClientMsg.key) = midsOf l := by
  unfold midsOf
  rw [List.filter_map, List.map_map]
  rfl

theorem Numbered.subperm (h : Numbered l)
    (hkeys : (l'.map ClientMsg.key).Subperm (l.map ClientMsg.key)) : Numbered l' := by
  have hsub : (midsOf l').Subperm (midsOf l) := by
    rw [← midsOf_key l, ← midsOf_key l']
    obtain ⟨l₁, hperm, hl⟩ := hkeys
    exact ⟨midsOf l₁, (hperm.filter _).map _, (hl.filter _).map _⟩
  refine ⟨?_, fun hmem => h.nonzero (hsub.subset hmem)⟩
  obtain ⟨l₁, hperm, hl⟩ := hsub
  exact hperm.nodup_iff.mp (h.nodup.sublist hl)

theorem Numbered.cons {a : ClientMsg} (h : Numbered l)
    (ha : a.qos ≠ .q0 → a.mid ≠ 0 ∧ a.mid ∉ midsOf l) : Numbered (a :: l) := by
  by_cases hq : a.qos = .q0
  · have hsame : midsOf (a :: l) = midsOf l := by
      unfold midsOf
      rw [List.filter_cons_of_neg (by simp [hq])]
    exact ⟨hsame ▸ h.nodup, hsame ▸ h.nonzero⟩
  · have hcons : midsOf (a :: l) = a.mid :: midsOf l := by
      unfold midsOf
      rw [List.filter_cons_of_pos (by simp [hq]), List.map_cons]
    obtain ⟨hzero, hfree⟩ := ha hq
    refine ⟨hcons ▸ List.nodup_cons.mpr ⟨hfree, h.nodup⟩, ?_⟩
    rw [hcons]
    exact List.not_mem_cons_of_ne_of_not_mem hzero.symm h.nonzero

end Numbered

section Held

variable {env : Env} {m : Machine}

theorem lastMid_handOver {found : Context} (h : m.ctx.cleanStart = false ∧
    found.sessionExpiryInterval > 0) : (handOver found m).1.ctx.lastMid = found.lastMid := by
  unfold handOver
  rw [if_pos h]

/-- The mids of the session, the last that was generated first. -/
def Service.given (m : Machine) (past : List UInt16) : Service → List UInt16
  | queue qos _ _ _ _ => if qos ≠ .q0 then nextMid m.ctx.lastMid :: past else past
  | mid => nextMid m.ctx.lastMid :: past
  | life (.takeOver fresh) =>
    if fresh.cleanStart = false ∧ m.ctx.sessionExpiryInterval > 0 then past else []
  | life _ => past

/-- Runs in which no message of QoS 1 or 2 is held while 65535 further mids are generated. -/
inductive Prompt (m₀ : Machine) : List UInt16 → Machine → Prop where
  | start : Prompt m₀ [] m₀
  | next {past : List UInt16} {m : Machine} (h : Prompt m₀ past m) (env : Env) (e : Service)
    (sane : e.Sane m) (recent : midsOf m.ctx.msgsOut.all ⊆ past.take 65534) :
    Prompt m₀ (e.given m past) (e.exec env m)

/-- The mids were generated one after the other up to `last_mid`. -/
def Generated (past : List UInt16) (lastMid : UInt16) : Prop :=
  ∀ i mid, past[i]? = some mid → mid ≠ 0 ∧ nextMid^[i] mid = lastMid

theorem Generated.nil (lastMid : UInt16) : Generated [] lastMid := fun _ _ h => nomatch h

theorem Generated.cons {past : List UInt16} {lastMid : UInt16} (h : Generated past lastMid) :
    Generated (nextMid lastMid :: past) (nextMid lastMid) := by
  intro i mid hi
  cases i with
  | zero =>
    cases hi
    exact ⟨nextMid_ne_zero _, rfl⟩
  | succ i =>
    obtain ⟨hne, hlast⟩ := h i mid hi
    refine ⟨hne, ?_⟩
    rw [Function.iterate_succ_apply', hlast]

/-- The next mid is none of the last 65534. -/
theorem Generated.free {past : List UInt16} {lastMid : UInt16} (h : Generated past lastMid) :
    nextMid lastMid ∉ past.take 65534 := by
  intro hmem
  obtain ⟨i, hi⟩ := List.mem_iff_getElem?.mp hmem
  rw [List.getElem?_take] at hi
  split at hi
  · rename_i hlt
    obtain ⟨hne, hlast⟩ := h i _ hi
    refine nextMid_iterate_ne hne hlt ?_
    rw [Function.iterate_succ_apply', hlast]
  · cases hi

theorem given_life {e : Life} (htake : ∀ fresh, e ≠ .takeOver fresh) (past : List UInt16) :
    (Service.life e).given m past = past := by
  cases e with
  | traffic t => rfl
  | takeOver fresh => exact absurd rfl (htake fresh)
  | checkAcl => rfl
  | connectDone connectAck => rfl

theorem generated_service {past : List UInt16} {e : Service} (hsane : e.Sane m)
    (hs : Sound .mdOut m) (h : Generated past m.ctx.lastMid) :
    Generated (e.given m past) (e.exec env m).ctx.lastMid := by
  cases e with
  | queue qos retain stored properties update =>
    show Generated (if qos ≠ .q0 then _ else _)
      (queueMessage env qos retain stored properties update m).2.ctx.lastMid
    rw [(queueMessage_sound hs).2]
    split
    · exact h.cons
    · exact h
  | mid => exact h.cons
  | life e =>
    rcases @life_cases env m e hsane hs with ⟨fresh, rfl, -⟩ | ⟨hother, hloses⟩
    · show Generated
        (if fresh.cleanStart = false ∧ m.ctx.sessionExpiryInterval > 0 then past else [])
        (handOver m.ctx ⟨m.db, fresh⟩).1.ctx.lastMid
      split
      · rename_i hresumed
        rw [lastMid_handOver hresumed]
        exact h
      · exact .nil _
    · rw [given_life hother]
      exact hloses.lastMid.symm ▸ h

/-- **In such runs the next mid is always free.** -/
theorem prompt_serves {m₀ : Machine} {past : List UInt16} (hclear : Clear m₀)
    (h : Prompt m₀ past m) :
    Serves (fun m e => e.Spares m) m₀ m := by
  suffices Serves (fun m e => e.Spares m) m₀ m ∧ Sound .mdOut m ∧
      Generated past m.ctx.lastMid from this.1
  induction h with
  | start => exact ⟨.start, ((clear_spec hclear).1 (loose Net.taking)).sound, .nil _⟩
  | @next past m _ env e hsane hrecent ih =>
    obtain ⟨hserves, hs, hgenerated⟩ := ih
    refine ⟨hserves.next env e hsane ?_, sound_service hsane hs,
      generated_service hsane hs hgenerated⟩
    cases e with
    | queue qos retain stored properties update =>
      exact fun _ _ _ _ _ _ _ _ hmem => hgenerated.free (hrecent hmem)
    | mid => trivial
    | life e => trivial

end Held

end AdaptiveMqtt.Broker
