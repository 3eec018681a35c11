import AdaptiveMqtt.Broker.Session
import AdaptiveMqtt.Db.Outward
import AdaptiveMqtt.Db.Window
import AdaptiveMqtt.Lib.Agenda

/-!
# The transmit policy of a client

A client goes to slow mode when the latency of a `latency` message reaches its threshold, and
back when it does not, when it unsubscribes from `latency`, or when a message is inserted more
than 30 seconds later. With `WITH_A_THRESHOLD` the threshold is the mean of the last five
samples; the first sample is judged by the threshold of CONNECT.

`lat_pre` starts with a zero in slot 0, where `context__init` writes nothing. The first sample
goes there, so the zero is in no mean.
-/

namespace AdaptiveMqtt.Broker

open Lib Db

/-! ## Turns -/

/-- What the policy of a client can see: `db__message_insert`, acknowledgements, unsubscribing
from `latency`, and a new connection of the client, which is a new `struct mosquitto`.
Everything else writes no field of the policy; a client that is to be freed has no id. -/
inductive Deed where
  | insert (mid : UInt16) (dir : Direction) (qos : Qos) (retain : Bool) (stored : MsgStore)
    (properties : List Property) (update : Bool)
  | ack (type : AckType) (p : AckPacket)
  | unsubscribe
  | connect (db : MosquittoDb) (sock : Option Nat) (p : ConnectPacket)
  | other (db : MosquittoDb) (ctx : Context) (hfree : ctx.state = .disused → ctx.id = none)

/-- A client after `context__init` and the CONNECT packet. -/
def connected (db : MosquittoDb) (sock : Option Nat) (p : ConnectPacket) : Machine :=
  ⟨db, (Context.init db.config sock).connect p⟩

def Deed.exec (net : Net) (m : Machine) : Deed → Machine
  | insert mid dir qos retain stored properties update =>
    (messageInsert net mid dir qos retain stored properties update m).2
  | ack type p => (handlePubackcomp net type p m).2
  | unsubscribe => { m with ctx := m.ctx.setMode .normalMode }
  | connect db sock p => connected db sock p
  | other db ctx _ =>
    ⟨db, { ctx with
      mode := m.ctx.mode, slowModeTime := m.ctx.slowModeTime, latPre := m.ctx.latPre
      countForLat := m.ctx.countForLat, thresholdL := m.ctx.thresholdL }⟩

/-- A deed with the network and the machine it starts from. -/
structure Turn where
  net : Net
  before : Machine
  deed : Deed

def Turn.after (t : Turn) : Machine := t.deed.exec t.net t.before

/-- The turns that lead from `m₀` to a machine. -/
inductive Turns (m₀ : Machine) : List Turn → Machine → Prop where
  | start : Turns m₀ [] m₀
  | next {turns : List Turn} {m : Machine} (h : Turns m₀ turns m) (net : Net) (d : Deed) :
    Turns m₀ (turns ++ [⟨net, m, d⟩]) (d.exec net m)

theorem Turns.keep {I : List Turn → Machine → Prop} {m₀ m : Machine} {turns : List Turn}
    (h : Turns m₀ turns m) (h₀ : I [] m₀)
    (hstep : ∀ turns t, I turns t.before → I (turns ++ [t]) t.after) : I turns m := by
  induction h with
  | start => exact h₀
  | next _ net d ih => exact hstep _ ⟨net, _, d⟩ ih

/-- The turns before one of them led to where it starts. -/
theorem Turns.split {m₀ m : Machine} {turns pre post : List Turn} {t : Turn}
    (h : Turns m₀ turns m) (hsplit : turns = pre ++ t :: post) : Turns m₀ pre t.before := by
  induction h generalizing post with
  | start => exact absurd hsplit (by simp)
  | next h net d ih =>
    rcases List.eq_nil_or_concat post with rfl | ⟨post', u, rfl⟩
    · obtain ⟨rfl, ht⟩ := List.append_inj' hsplit rfl
      obtain rfl := (List.cons_eq_cons.mp ht).1
      exact h
    · rw [List.concat_eq_append, ← List.cons_append, ← List.append_assoc] at hsplit
      exact ih (List.append_inj' hsplit rfl).1

def Deed.turns (net : Net) : Machine → List Deed → List Turn
  | _, [] => []
  | m, d :: ds => ⟨net, m, d⟩ :: turns net (d.exec net m) ds

theorem turns_of_deeds {m₀ m : Machine} {turns : List Turn} (h : Turns m₀ turns m) (net : Net)
    (ds : List Deed) :
    Turns m₀ (turns ++ Deed.turns net m ds) (ds.foldl (fun m d => d.exec net m) m) := by
  induction ds generalizing m turns with
  | nil =>
    rw [Deed.turns, List.append_nil]
    exact h
  | cons d ds ih =>
    have hrun := ih (h.next net d)
    rwa [List.append_assoc] at hrun

theorem connected_fields (db : MosquittoDb) (sock : Option Nat) (p : ConnectPacket) :
    (connected db sock p).ctx.state = .new ∧ (connected db sock p).ctx.mode = .normalMode ∧
      (connected db sock p).ctx.latPre = [0, 1000000, 1000000, 1000000, 1000000] ∧
      (connected db sock p).ctx.countForLat = 0 ∧
      (connected db sock p).ctx.thresholdL = p.thresholdL.getD 0 := by
  have hfield : ∀ {α : Type} (f : Context → α),
      (∀ ctx n, f { ctx with sessionExpiryInterval := n } = f ctx) →
      (∀ ctx md, f { ctx with msgsOut := md } = f ctx) →
      (∀ ctx n, f { ctx with maximumPacketSize := n } = f ctx) → ∀ ctx : Context,
      f (if p.protocol = .mqtt5 then ctx.processConnect p.properties else ctx) = f ctx := by
    intro α f h1 h2 h3 ctx
    split
    · exact Context.processConnect_field f h1 h2 h3 p.properties ctx
    · rfl
  refine ⟨?_, ?_, ?_, ?_, ?_⟩
  · exact hfield (·.state) (fun _ _ => rfl) (fun _ _ => rfl) (fun _ _ => rfl) _
  · exact hfield (·.mode) (fun _ _ => rfl) (fun _ _ => rfl) (fun _ _ => rfl) _
  · exact hfield (·.latPre) (fun _ _ => rfl) (fun _ _ => rfl) (fun _ _ => rfl) _
  · exact hfield (·.countForLat) (fun _ _ => rfl) (fun _ _ => rfl) (fun _ _ => rfl) _
  · show p.thresholdL.getD _ = _
    rw [hfield (·.thresholdL) (fun _ _ => rfl) (fun _ _ => rfl) (fun _ _ => rfl)]
    rfl

/-- A client that is to be freed has no id. -/
def Nameless (m : Machine) : Prop := m.ctx.state = .disused → m.ctx.id = none

theorem nameless_of_rests {m m' : Machine} (h : Rests m m') (hm : Nameless m) : Nameless m' := by
  unfold Nameless
  rw [Context.of_rest (·.state) (fun _ => rfl) h.rest, Context.of_rest (·.id) (fun _ => rfl) h.rest]
  exact hm

theorem setMode_fields (ctx : Context) (mode : TransferMode) :
    (ctx.setMode mode).state = ctx.state ∧ (ctx.setMode mode).id = ctx.id ∧
      (ctx.setMode mode).slowModeTime = ctx.slowModeTime ∧
      ((ctx.setMode mode).mode = mode ∨ (ctx.setMode mode).mode = ctx.mode) := by
  unfold Context.setMode
  split
  · exact ⟨rfl, rfl, rfl, .inl rfl⟩
  · exact ⟨rfl, rfl, rfl, .inr rfl⟩

theorem beforeInsert_fields (m : Machine) :
    (beforeInsert m).ctx.state = m.ctx.state ∧ (beforeInsert m).ctx.id = m.ctx.id ∧
      (beforeInsert m).ctx.slowModeTime = m.ctx.slowModeTime ∧
      ((beforeInsert m).ctx.mode = .normalMode ∨ (beforeInsert m).ctx.mode = m.ctx.mode) := by
  unfold beforeInsert leaveSlowMode
  simp only
  split
  · split
    · exact setMode_fields m.ctx .normalMode
    · exact ⟨rfl, rfl, rfl, .inr rfl⟩
  · exact ⟨rfl, rfl, rfl, .inr rfl⟩

theorem nameless_turn {t : Turn} (h : Nameless t.before) : Nameless t.after := by
  obtain ⟨net, m, d⟩ := t
  cases d with
  | insert mid dir qos retain stored properties update =>
    rcases @rests_messageInsert net mid dir qos retain stored properties update m with hr | hr
    · exact nameless_of_rests hr h
    · obtain ⟨hstate, hid, -, -⟩ := beforeInsert_fields m
      exact nameless_of_rests hr fun hs => hid.trans (h (hstate ▸ hs))
  | ack type p =>
    rcases @rests_handlePubackcomp net type p m with ⟨-, hr⟩ | ⟨-, hr⟩
    · refine nameless_of_rests hr ?_
      rw [recordLatency_eq]
      exact h
    · exact nameless_of_rests hr h
  | unsubscribe =>
    obtain ⟨hstate, hid, -, -⟩ := setMode_fields m.ctx .normalMode
    exact fun hs => hid.trans (h (hstate ▸ hs))
  | connect db sock p =>
    intro hs
    rw [show (Turn.after ⟨net, m, .connect db sock p⟩).ctx.state = .new from
      (connected_fields db sock p).1] at hs
    cases hs
  | other db ctx hfree => exact hfree

/-! ## Slow mode is capped -/

/-- The second of the wall clock at which a turn places a message in storage. -/
def Turn.storesAt (t : Turn) : Option Int :=
  match t.deed with
  | .insert _ dir qos retain stored _ _ =>
    match t.before.ctx.id with
    | none => none
    | some id =>
      match insertRefused dir qos retain stored id t.before,
        (insertState dir qos stored t.before).1 with
      | none, .ok (.storage, _) => some t.before.db.read.1.wall
      | _, _ => none
  | _ => none

/-- The turn takes the client from normal to slow mode, at this second of the wall clock,
which is recorded. -/
structure Enters (t : Turn) (e : Int) : Prop where
  normal : t.before.ctx.mode = .normalMode
  slow : t.after.ctx.mode = .slowMode
  now : t.before.db.read.2.read.1.wall = e
  recorded : t.after.ctx.slowModeTime = e

theorem slow_of_not_normal {mode : TransferMode} (h : mode ≠ .normalMode) : mode = .slowMode := by
  cases mode with
  | normalMode => exact absurd rfl h
  | slowMode => rfl

/-- A client in slow mode after a turn was so before, or has entered it. -/
theorem turn_slow {t : Turn} (h : t.after.ctx.mode = .slowMode) :
    (t.before.ctx.mode = .slowMode ∧ t.after.ctx.slowModeTime = t.before.ctx.slowModeTime) ∨
      Enters t t.after.ctx.slowModeTime := by
  have hrest : ∀ {m m' : Machine}, Rests m m' → m'.ctx.mode = m.ctx.mode ∧
      m'.ctx.slowModeTime = m.ctx.slowModeTime := fun hr =>
    ⟨Context.of_rest (·.mode) (fun _ => rfl) hr.rest,
      Context.of_rest (·.slowModeTime) (fun _ => rfl) hr.rest⟩
  obtain ⟨net, m, d⟩ := t
  cases d with
  | insert mid dir qos retain stored properties update =>
    rcases @rests_messageInsert net mid dir qos retain stored properties update m with hr | hr
    · exact .inl ⟨(hrest hr).1.symm.trans h, (hrest hr).2⟩
    · obtain ⟨-, -, htime, hmode⟩ := beforeInsert_fields m
      have hslow : (beforeInsert m).ctx.mode = .slowMode := (hrest hr).1.symm.trans h
      rcases hmode with hmode | hmode
      · cases hslow.symm.trans hmode
      · exact .inl ⟨hmode.symm.trans hslow, (hrest hr).2.trans htime⟩
  | ack type p =>
    rcases @rests_handlePubackcomp net type p m with ⟨hsampled, hr⟩ | ⟨-, hr⟩
    · have hslow : (recordLatency m).ctx.mode = .slowMode := (hrest hr).1.symm.trans h
      have hactive : m.ctx.state ≠ .disused := by
        rw [hsampled.1]
        exact (nomatch ·)
      have hlat : m.sample ≥ m.ctx.thresholdL.toNat := by
        by_contra hlat
        simp only [recordLatency_eq, if_neg hactive, if_neg hlat] at hslow
        cases hslow
      have htime : (Turn.after ⟨net, m, .ack type p⟩).ctx.slowModeTime =
          if m.ctx.mode = .normalMode then m.db.read.2.read.1.wall else m.ctx.slowModeTime := by
        refine (hrest hr).2.trans ?_
        simp only [recordLatency_eq, if_pos hlat]
      by_cases hmode : m.ctx.mode = .normalMode
      · rw [if_pos hmode] at htime
        exact .inr ⟨hmode, h, htime.symm, rfl⟩
      · rw [if_neg hmode] at htime
        exact .inl ⟨slow_of_not_normal hmode, htime⟩
    · exact .inl ⟨(hrest hr).1.symm.trans h, (hrest hr).2⟩
  | unsubscribe =>
    obtain ⟨-, -, htime, hmode⟩ := setMode_fields m.ctx .normalMode
    rcases hmode with hmode | hmode
    · cases h.symm.trans hmode
    · exact .inl ⟨hmode.symm.trans h, htime⟩
  | connect db sock p => cases h.symm.trans (connected_fields db sock p).2.1
  | other db ctx hfree => exact .inl ⟨h, rfl⟩

theorem insertState_storage {dir : Direction} {qos : Qos} {stored : MsgStore} {m : Machine} {rc : Rc}
    (hactive : m.ctx.state ≠ .disused)
    (h : (insertState dir qos stored m).1 = .ok (.storage, rc)) :
    m.ctx.mode = .slowMode ∧ m.db.read.1.wall ≤ m.ctx.slowModeTime + 30 := by
  have hpublish : ∀ q, publishState q ≠ .storage := fun q => by cases q <;> decide
  unfold insertState at h
  simp only at h
  split at h
  · split at h
    · rename_i hslow
      have hmode := hslow.2.1
      by_cases hnow : m.ctx.slowModeTime + 30 < m.db.read.1.wall
      · simp only [leaveSlowMode, Context.setMode, if_pos hnow, if_pos hactive] at hmode
        cases hmode
      · simp only [leaveSlowMode, if_neg hnow] at hmode
        exact ⟨hmode, not_lt.mp hnow⟩
    · split at h
      · cases dir with
        | mdOut => simp [hpublish] at h
        | mdIn =>
          simp only at h
          split at h <;> simp at h
      · split at h <;> simp at h
  · split at h <;> simp at h

/-- A client that has a message stored is in slow mode, for 30 seconds at most. -/
theorem storesAt_slow {t : Turn} {sec : Int} (hname : Nameless t.before)
    (h : t.storesAt = some sec) :
    t.before.ctx.mode = .slowMode ∧ sec ≤ t.before.ctx.slowModeTime + 30 := by
  obtain ⟨net, m, d⟩ := t
  cases d with
  | insert mid dir qos retain stored properties update =>
    simp only [Turn.storesAt] at h
    split at h
    · cases h
    · rename_i id hid
      split at h
      · rename_i rc hrefused hstate
        obtain rfl := Option.some.inj h
        have hactive : m.ctx.state ≠ .disused := fun hs => by
          rw [hname hs] at hid
          cases hid
        exact insertState_storage hactive hstate
      · cases h
  | ack type p => cases h
  | unsubscribe => cases h
  | connect db sock p => cases h
  | other db ctx hfree => cases h

/-- The message is placed first, whatever is sent then. -/
theorem messageInsert_eq (net : Net) (mid : UInt16) (dir : Direction) (qos : Qos) (retain : Bool)
    (stored : MsgStore) (properties : List Property) (update : Bool) (m : Machine) :
    (∀ rc, (insertPlace mid dir qos retain stored properties m).1 = .error rc →
      messageInsert net mid dir qos retain stored properties update m =
        (rc, (insertPlace mid dir qos retain stored properties m).2)) ∧
    ∀ rc, (insertPlace mid dir qos retain stored properties m).1 = .ok rc →
      messageInsert net mid dir qos retain stored properties update m =
        insertSend net dir qos retain stored update rc
          (insertPlace mid dir qos retain stored properties m).2 := by
  unfold insertPlace messageInsert
  cases hid : m.ctx.id with
  | none => exact ⟨by rintro rc ⟨⟩; rfl, by rintro rc ⟨⟩⟩
  | some id =>
    cases hr : insertRefused dir qos retain stored id m with
    | some rc' =>
      simp only [hr]
      exact ⟨by rintro rc ⟨⟩; rfl, by rintro rc ⟨⟩⟩
    | none =>
      have helse := elsewhere_insertState dir qos stored m
      match hs : insertState dir qos stored m with
      | (.error rc', m₁) =>
        simp only [hr]
        exact ⟨by rintro rc ⟨⟩; rfl, by rintro rc ⟨⟩⟩
      | (.ok (state, rc'), m₁) =>
        rw [hs] at helse
        have hid' : (insertMsg mid dir qos retain stored properties state m₁).ctx.id = some id := by
          rw [← hid, ← helse.id]
          cases dir <;> rfl
        simp only [hr, insertSend, hid', Option.getD_some]
        exact ⟨by rintro rc ⟨⟩, by rintro rc ⟨⟩; rfl⟩

/-- The message goes to the end of the list of its state. -/
theorem insertMsg_storage (mid : UInt16) (dir : Direction) (qos : Qos) (retain : Bool)
    (stored : MsgStore) (properties : List Property) (state : MsgState) (m : Machine) :
    (∀ d, d ≠ dir ∨ state ≠ .storage →
      ((insertMsg mid dir qos retain stored properties state m).ctx.msgs d).storage =
        (m.ctx.msgs d).storage) ∧
    (state = .storage → ∃ msg,
      ((insertMsg mid dir qos retain stored properties state m).ctx.msgs dir).storage =
        (m.ctx.msgs dir).storage ++ [msg]) := by
  have hcount : ∀ (md : MsgData) (msg : ClientMsg),
      ((md.place msg).count msg qos).storage = (md.place msg).storage := by
    intro md msg
    unfold MsgData.count
    simp only
    split
    · rfl
    · rfl
  unfold insertMsg
  simp only [Context.msgs_log]
  refine ⟨fun d hd => ?_, fun hstate => ?_⟩
  · by_cases hdir : d = dir
    · subst hdir
      rw [Context.msgs_setMsgs_self, hcount]
      cases state with
      | storage => exact absurd rfl (hd.resolve_left (not_not.mpr rfl))
      | _ => rfl
    · rw [Context.msgs_setMsgs_ne _ _ hdir]
  · subst hstate
    rw [Context.msgs_setMsgs_self, hcount]
    exact ⟨_, rfl⟩

/-- **`db__message_insert` places a message in a storage list** exactly when `storesAt` has a
second. -/
theorem insertPlace_storage (net : Net) (mid : UInt16) (dir : Direction) (qos : Qos)
    (retain : Bool) (stored : MsgStore) (properties : List Property) (update : Bool) (m : Machine) :
    let t : Turn := ⟨net, m, .insert mid dir qos retain stored properties update⟩
    let placed := (insertPlace mid dir qos retain stored properties m).2
    (t.storesAt = none ∧ ∀ d, (placed.ctx.msgs d).storage = (m.ctx.msgs d).storage) ∨
    (t.storesAt = some m.db.read.1.wall ∧
      ∃ msg, (placed.ctx.msgs dir).storage = (m.ctx.msgs dir).storage ++ [msg]) := by
  intro t placed
  cases hid : m.ctx.id with
  | none => exact .inl ⟨by simp [t, Turn.storesAt, hid], fun d => by simp [placed, insertPlace, hid]⟩
  | some id =>
    cases hr : insertRefused dir qos retain stored id m with
    | some rc =>
      exact .inl ⟨by simp [t, Turn.storesAt, hid, hr],
        fun d => by simp [placed, insertPlace, hid, hr]⟩
    | none =>
      have helse := elsewhere_insertState dir qos stored m
      have hmsgs : ∀ d, (insertState dir qos stored m).2.ctx.msgs d = m.ctx.msgs d := fun d => by
        cases d with
        | mdOut => exact helse.msgsOut
        | mdIn => exact helse.msgsIn
      match hs : insertState dir qos stored m with
      | (.error rc, m₁) =>
        rw [hs] at hmsgs
        exact .inl ⟨by simp [t, Turn.storesAt, hid, hr, hs],
          fun d => by simp [placed, insertPlace, hid, hr, hs, hmsgs]⟩
      | (.ok (state, rc), m₁) =>
        rw [hs] at hmsgs
        obtain ⟨hsame, hstored⟩ :=
          insertMsg_storage mid dir qos retain stored properties state m₁
        by_cases hstate : state = .storage
        · obtain ⟨msg, hmsg⟩ := hstored hstate
          subst hstate
          refine .inr ⟨by simp [t, Turn.storesAt, hid, hr, hs], msg, ?_⟩
          simp only [placed, insertPlace, hid, hr, hs]
          rw [hmsg, hmsgs]
        · refine .inl ⟨?_, fun d => ?_⟩
          · cases state with
            | storage => exact absurd rfl hstate
            | _ => simp [t, Turn.storesAt, hid, hr, hs]
          · simp only [placed, insertPlace, hid, hr, hs]
            rw [hsame d (.inr hstate), hmsgs]

/-- A turn places a message in a storage list, at this second of the wall clock. -/
def Turn.Stores (t : Turn) (sec : Int) : Prop :=
  ∃ mid dir qos retain stored properties update msg,
    t.deed = .insert mid dir qos retain stored properties update ∧
    ((insertPlace mid dir qos retain stored properties t.before).2.ctx.msgs dir).storage =
      (t.before.ctx.msgs dir).storage ++ [msg] ∧ t.before.db.read.1.wall = sec

theorem stores_iff {t : Turn} {sec : Int} : t.Stores sec ↔ t.storesAt = some sec := by
  obtain ⟨net, m, d⟩ := t
  constructor
  · rintro ⟨mid, dir, qos, retain, stored, properties, update, msg, rfl, hlist, rfl⟩
    rcases insertPlace_storage net mid dir qos retain stored properties update m with
      ⟨-, hsame⟩ | ⟨hsec, -⟩
    · have hlen := congrArg List.length (hlist.symm.trans (hsame dir))
      simp at hlen
    · exact hsec
  · intro hsec
    cases d with
    | insert mid dir qos retain stored properties update =>
      rcases insertPlace_storage net mid dir qos retain stored properties update m with
        ⟨hnone, -⟩ | ⟨hsome, msg, hmsg⟩
      · cases hnone.symm.trans hsec
      · exact ⟨mid, dir, qos, retain, stored, properties, update, msg, rfl, hmsg,
          Option.some.inj (hsome.symm.trans hsec)⟩
    | _ => cases hsec

/-- A client in slow mode has entered it and not left it since. -/
def Entered (turns : List Turn) (m : Machine) : Prop :=
  m.ctx.mode = .slowMode → ∃ pre s post, turns = pre ++ s :: post ∧
    Enters s m.ctx.slowModeTime ∧
    ∀ u ∈ post, u.before.ctx.mode = .slowMode ∧ u.after.ctx.mode = .slowMode

theorem entered_turn {turns : List Turn} {t : Turn} (h : Entered turns t.before) :
    Entered (turns ++ [t]) t.after := by
  intro hslow
  rcases turn_slow hslow with ⟨hbefore, htime⟩ | henters
  · obtain ⟨pre, s, post, rfl, hs, hpost⟩ := h hbefore
    refine ⟨pre, s, post ++ [t], by simp, htime.symm ▸ hs, fun u hu => ?_⟩
    rcases List.mem_append.mp hu with hu | hu
    · exact hpost u hu
    · rw [List.mem_singleton.mp hu]
      exact ⟨hbefore, hslow⟩
  · exact ⟨turns, t, [], rfl, henters, fun u hu => absurd hu List.not_mem_nil⟩

/-- **Slow mode is capped**: whenever `db__message_insert` puts a message in storage, the
client has gone from normal to slow mode at a recorded second that is at most 30 seconds
back, and has been in slow mode since. -/
theorem slow_mode_capped {db : MosquittoDb} {sock : Option Nat} {p : ConnectPacket}
    {turns pre post : List Turn} {t : Turn} {m : Machine} {sec : Int}
    (h : Turns (connected db sock p) turns m) (ht : turns = pre ++ t :: post)
    (hsec : t.Stores sec) :
    ∃ before s since e, pre = before ++ s :: since ∧ Enters s e ∧ sec ≤ e + 30 ∧
      (∀ u ∈ since, u.before.ctx.mode = .slowMode ∧ u.after.ctx.mode = .slowMode) ∧
      t.before.ctx.mode = .slowMode := by
  have hpre := h.split ht
  have hname : Nameless t.before := by
    refine hpre.keep (I := fun _ m => Nameless m) ?_ fun _ _ hm => nameless_turn hm
    intro hs
    rw [(connected_fields db sock p).1] at hs
    cases hs
  have hentered : Entered pre t.before := by
    refine hpre.keep (I := Entered) ?_ fun _ _ hm => entered_turn hm
    intro hs
    rw [(connected_fields db sock p).2.1] at hs
    cases hs
  obtain ⟨hslow, hle⟩ := storesAt_slow hname (stores_iff.mp hsec)
  obtain ⟨before, s, since, hsplit, henters, hsince⟩ := hentered hslow
  exact ⟨before, s, since, _, hsplit, henters, hle, hsince, hslow⟩

/-- A client with a threshold of five microseconds whose clocks go by a second a reading. -/
def fivePacket : ConnectPacket :=
  { clientId := ascii "c", protocol := .mqtt311, isBridge := false, cleanStart := true
    keepalive := 60, properties := [], will := none, willDelayInterval := 0, thresholdL := some 5 }

/-- The database of that client. -/
def ticking : MosquittoDb :=
  MosquittoDb.dbOpen { Config.init with thresholdS := 1 } fun i => ⟨i + 2, 0, i + 2⟩

/-- A `latency` message is sent, its PUBACK comes a second later, and a message is inserted. -/
def slowDeeds : List Deed :=
  [.other ticking { (connected ticking (some 3) fivePacket).ctx with state := .active, sendTime := (1, 0) }
      (nomatch ·),
    .ack .puback (.puback 1), .insert 2 .mdOut .q1 false (MsgStore.byte 1) [] false]

/-- A message is stored two seconds after the client went to slow mode. -/
theorem slow_mode_capped_two :
    let turns := Deed.turns .taking (connected ticking (some 3) fivePacket) slowDeeds
    ∃ before s since e, turns.take 2 = before ++ s :: since ∧ Enters s e ∧ 5 ≤ e + 30 ∧
      (∀ u ∈ since, u.before.ctx.mode = .slowMode ∧ u.after.ctx.mode = .slowMode) := by
  intro turns
  have hrun := turns_of_deeds (Turns.start : Turns (connected ticking (some 3) fivePacket) [] _) .taking
    slowDeeds
  obtain ⟨before, s, since, e, hsplit, henters, hle, hsince, -⟩ :=
    @slow_mode_capped _ _ _ _ (turns.take 2) [] _ _ 5 hrun rfl (stores_iff.mpr rfl)
  exact ⟨before, s, since, e, hsplit, henters, hle, hsince⟩

/-! ## The threshold -/

def Turn.sample (t : Turn) : Option Int :=
  match t.deed with
  | .ack type p => if Sampled type p t.before then some t.before.sample else none
  | _ => none

/-- The nanoseconds between the sending of the `latency` message and a PUBACK handled now. -/
def Turn.elapsed (t : Turn) : Int :=
  let tp := t.before.db.read.1
  (tp.sec - t.before.ctx.sendTime.1) * 1000000000 + (tp.nsec - t.before.ctx.sendTime.2)

/-- What the threshold is made of: the value of CONNECT, and the samples since. -/
structure Gauge where
  connect : UInt32
  samples : List Int

namespace Gauge

/-- The last five samples; missing ones are a second. -/
def lastFive (g : Gauge) : List Int :=
  (List.replicate 5 1000000 ++ g.samples).drop g.samples.length

/-- The mean of the last five samples. -/
def mean (g : Gauge) : Int := g.lastFive.sum / 5

/-- What the next sample is compared with. -/
def bound (g : Gauge) : Int := if g.samples = [] then g.connect.toNat else g.mean

/-- What a turn adds. -/
def observe (g : Gauge) (t : Turn) : Gauge :=
  match t.deed with
  | .connect _ _ p => ⟨p.thresholdL.getD 0, []⟩
  | _ => { g with samples := g.samples ++ t.sample.toList }

/-- The gauge after some turns of a client that connected with `p`. -/
def of (p : ConnectPacket) (turns : List Turn) : Gauge :=
  turns.foldl observe ⟨p.thresholdL.getD 0, []⟩

/-- No sample is negative, and the mean fits `threshold_l`. -/
def Fits (g : Gauge) : Prop :=
  (∀ x ∈ g.samples, 0 ≤ x) ∧ (g.samples ≠ [] → g.mean < 2 ^ 32)

instance (g : Gauge) : Decidable g.Fits := inferInstanceAs (Decidable (_ ∧ _))

end Gauge

/-- C's division of a non-negative or a negative remainder of nanoseconds. -/
theorem measuredLatency_bound (sendTime : Int × Int) (tp : Reading)
    (h : 0 ≤ (tp.sec - sendTime.1) * 1000000000 + (tp.nsec - sendTime.2)) :
    0 ≤ measuredLatency sendTime tp ∧
      |1000 * measuredLatency sendTime tp -
        ((tp.sec - sendTime.1) * 1000000000 + (tp.nsec - sendTime.2))| < 1000 := by
  have hdiv := Int.mul_tdiv_add_tmod (tp.nsec - sendTime.2) 1000
  have hlt := Int.tmod_lt_of_pos (tp.nsec - sendTime.2) (show (0 : Int) < 1000 by decide)
  have hgt := Int.lt_tmod_of_pos (tp.nsec - sendTime.2) (show (0 : Int) < 1000 by decide)
  unfold measuredLatency
  rw [abs_lt]
  omega

/-- `lat_pre` is a ring buffer of the samples. -/
structure Ringed (latPre samples : List Int) : Prop where
  length : latPre.length = 5
  ring : latPre.rotate samples.length =
    ([0, 1000000, 1000000, 1000000, 1000000] ++ samples).drop samples.length

/-- After the first sample the zero of `calloc` is gone. -/
theorem Ringed.lastFive {g : Gauge} {latPre : List Int} (h : Ringed latPre g.samples)
    (hne : g.samples ≠ []) : latPre.Perm g.lastFive := by
  have hdrop : g.lastFive =
      ([0, 1000000, 1000000, 1000000, 1000000] ++ g.samples).drop g.samples.length := by
    obtain ⟨x, xs, hx⟩ := List.exists_cons_of_ne_nil hne
    unfold Gauge.lastFive
    rw [hx, List.length_cons]
    rfl
  rw [hdrop, ← h.ring]
  exact (List.rotate_perm _ _).symm

theorem lastFive_nonneg {g : Gauge} (h : ∀ x ∈ g.samples, 0 ≤ x) : 0 ≤ g.lastFive.sum := by
  refine List.sum_nonneg fun x hx => ?_
  rcases List.mem_append.mp (List.mem_of_mem_drop hx) with hx | hx
  · rw [List.eq_of_mem_replicate hx]
    decide
  · exact h x hx

/-- The threshold and what it is made of. -/
structure Gauged (g : Gauge) (ctx : Context) : Prop where
  ringed : Ringed ctx.latPre g.samples
  count : ctx.countForLat.tmod 5 = ((g.samples.length % 5 : Nat) : Int)
  threshold : (ctx.thresholdL.toNat : Int) = g.bound

theorem Gauged.of_fields {g : Gauge} {ctx ctx' : Context} (h : Gauged g ctx)
    (heq : (ctx'.latPre, ctx'.countForLat, ctx'.thresholdL) =
      (ctx.latPre, ctx.countForLat, ctx.thresholdL)) : Gauged g ctx' := by
  simp only [Prod.mk.injEq] at heq
  obtain ⟨hlat, hcount, hthreshold⟩ := heq
  exact ⟨hlat ▸ h.ringed, hcount ▸ h.count, hthreshold ▸ h.threshold⟩

theorem Gauged.of_rests {g : Gauge} {m m' : Machine} (h : Gauged g m.ctx) (hr : Rests m m') :
    Gauged g m'.ctx :=
  h.of_fields (Context.of_rest (fun ctx => (ctx.latPre, ctx.countForLat, ctx.thresholdL))
    (fun _ => rfl) hr.rest)

theorem gauged_connected (db : MosquittoDb) (sock : Option Nat) (p : ConnectPacket) :
    Gauged ⟨p.thresholdL.getD 0, []⟩ (connected db sock p).ctx := by
  obtain ⟨-, -, hlat, hcount, hthreshold⟩ := connected_fields db sock p
  refine ⟨?_, ?_, ?_⟩
  · rw [hlat]
    exact ⟨rfl, rfl⟩
  · rw [hcount]
    rfl
  · rw [hthreshold]
    rfl

/-- A sample takes the place of the oldest one, and the threshold is the new mean. -/
theorem gauged_recordLatency {g : Gauge} {m : Machine} (h : Gauged g m.ctx)
    (hfits : Gauge.Fits { g with samples := g.samples ++ [m.sample] }) :
    Gauged { g with samples := g.samples ++ [m.sample] } (recordLatency m).ctx := by
  obtain ⟨⟨hlength, hring⟩, hcount, -⟩ := h
  have hsamples : m.samples = Ring.write m.ctx.latPre g.samples.length m.sample := by
    unfold Machine.samples Ring.write
    rw [hcount, hlength, Int.toNat_natCast]
  have hne : m.ctx.latPre ≠ [] := fun hnil => by rw [hnil] at hlength; cases hlength
  have hrot := Ring.rotate_write_append hne hring hlength.symm m.sample
  have hringed : Ringed m.samples (g.samples ++ [m.sample]) := by
    rw [hsamples]
    exact ⟨by rw [Ring.length_write, hlength], hrot⟩
  have hmean := hfits.2 (by simp)
  have hsum := lastFive_nonneg hfits.1
  have heq := (@Ringed.lastFive { g with samples := g.samples ++ [m.sample] } _ hringed
    (by simp)).sum_eq
  rw [recordLatency_eq]
  refine ⟨hringed, ?_, ?_⟩
  · simp only [List.length_append, List.length_singleton, hcount]
    rw [Int.tmod_eq_emod_of_nonneg (by omega)]
    omega
  · simp only [Gauge.bound, if_neg (show ¬ g.samples ++ [m.sample] = [] by simp)]
    rw [Int.tdiv_eq_ediv_of_nonneg (heq ▸ hsum), heq]
    simp only [Gauge.mean] at hmean ⊢
    rw [UInt32.toNat_ofNat']
    omega

theorem setMode_gauge (ctx : Context) (mode : TransferMode) :
    ((ctx.setMode mode).latPre, (ctx.setMode mode).countForLat, (ctx.setMode mode).thresholdL) =
      (ctx.latPre, ctx.countForLat, ctx.thresholdL) := by
  unfold Context.setMode
  split <;> rfl

theorem beforeInsert_gauge (m : Machine) :
    ((beforeInsert m).ctx.latPre, (beforeInsert m).ctx.countForLat,
        (beforeInsert m).ctx.thresholdL) =
      (m.ctx.latPre, m.ctx.countForLat, m.ctx.thresholdL) := by
  unfold beforeInsert leaveSlowMode
  simp only
  split
  · split
    · exact setMode_gauge m.ctx _
    · rfl
  · rfl

theorem Gauge.observe_none (g : Gauge) {t : Turn} (h : t.sample = none)
    (hd : ∀ db sock p, t.deed ≠ .connect db sock p) : g.observe t = g := by
  unfold Gauge.observe
  split
  · rename_i db sock p hdeed
    exact absurd hdeed (hd db sock p)
  · rw [h, Option.toList_none, List.append_nil]

theorem gauged_turn {g : Gauge} {t : Turn} (h : Gauged g t.before.ctx)
    (hfits : (g.observe t).Fits) : Gauged (g.observe t) t.after.ctx := by
  obtain ⟨net, m, d⟩ := t
  cases d with
  | insert mid dir qos retain stored properties update =>
    rw [g.observe_none (by rfl) (fun _ _ _ hd => by cases hd)]
    rcases @rests_messageInsert net mid dir qos retain stored properties update m with hr | hr
    · exact h.of_rests hr
    · exact (h.of_fields (beforeInsert_gauge m)).of_rests hr
  | ack type p =>
    rcases @rests_handlePubackcomp net type p m with ⟨hsampled, hr⟩ | ⟨hnot, hr⟩
    · have hsample : Turn.sample ⟨net, m, .ack type p⟩ = some m.sample := if_pos hsampled
      simp only [Gauge.observe, hsample, Option.toList_some] at hfits ⊢
      exact (gauged_recordLatency h hfits).of_rests hr
    · have hsample : Turn.sample ⟨net, m, .ack type p⟩ = none := if_neg hnot
      rw [g.observe_none hsample (fun _ _ _ hd => by cases hd)]
      exact h.of_rests hr
  | unsubscribe =>
    rw [g.observe_none (by rfl) (fun _ _ _ hd => by cases hd)]
    exact h.of_fields (setMode_gauge m.ctx _)
  | connect db sock p => exact gauged_connected db sock p
  | other db ctx hfree =>
    rw [g.observe_none (by rfl) (fun _ _ _ hd => by cases hd)]
    exact h.of_fields rfl

@[simp] theorem Gauge.of_append (p : ConnectPacket) (turns : List Turn) (t : Turn) :
    Gauge.of p (turns ++ [t]) = (Gauge.of p turns).observe t := by
  simp [Gauge.of]

theorem gauged_turns {db : MosquittoDb} {sock : Option Nat} {p : ConnectPacket}
    {turns : List Turn} {m : Machine} (h : Turns (connected db sock p) turns m)
    (hfits : ∀ pre, pre <+: turns → (Gauge.of p pre).Fits) : Gauged (Gauge.of p turns) m.ctx := by
  induction h with
  | start => exact gauged_connected db sock p
  | next h net d ih =>
    rw [Gauge.of_append]
    refine gauged_turn (t := ⟨net, _, d⟩) (ih fun pre hpre => ?_) ?_
    · exact hfits pre (hpre.trans (List.prefix_append _ _))
    · rw [← Gauge.of_append]
      exact hfits _ List.prefix_rfl

theorem sample_mode {t : Turn} {x : Int} (h : t.sample = some x) :
    t.after.ctx.mode = .slowMode ↔ (t.before.ctx.thresholdL.toNat : Int) ≤ x := by
  obtain ⟨net, m, d⟩ := t
  cases d with
  | ack type p =>
    rcases @rests_handlePubackcomp net type p m with ⟨hsampled, hr⟩ | ⟨hnot, hr⟩
    · rw [show Turn.sample ⟨net, m, .ack type p⟩ = some m.sample from if_pos hsampled] at h
      obtain rfl := Option.some.inj h
      have hactive : m.ctx.state ≠ .disused := by
        rw [hsampled.1]
        exact (nomatch ·)
      have hmode : (Turn.after ⟨net, m, .ack type p⟩).ctx.mode =
          if m.sample ≥ m.ctx.thresholdL.toNat then .slowMode else .normalMode := by
        refine (Context.of_rest (·.mode) (fun _ => rfl) hr.rest).trans ?_
        simp only [recordLatency_eq, if_neg hactive]
      rw [hmode]
      split
      · rename_i hlat
        exact ⟨fun _ => hlat, fun _ => rfl⟩
      · rename_i hlat
        exact ⟨fun hs => (nomatch hs), fun hle => absurd hle hlat⟩
    · rw [show Turn.sample ⟨net, m, .ack type p⟩ = none from if_neg hnot] at h
      cases h
  | _ => cases h

/-- **The threshold adapts**: after every run of a client the last five samples are in
`lat_pre` and their mean is the threshold, every sample sends the client to slow mode if and
only if it reaches the threshold before it, and a sample is the elapsed time up to a
microsecond. -/
theorem adaptive_threshold {db : MosquittoDb} {sock : Option Nat} {p : ConnectPacket}
    {turns : List Turn} {m : Machine} (h : Turns (connected db sock p) turns m)
    (hfits : ∀ pre, pre <+: turns → (Gauge.of p pre).Fits) :
    ((Gauge.of p turns).samples ≠ [] → m.ctx.latPre.Perm (Gauge.of p turns).lastFive ∧
      (m.ctx.thresholdL.toNat : Int) = (Gauge.of p turns).mean) ∧
    ∀ pre t post x, turns = pre ++ t :: post → t.sample = some x →
      (t.after.ctx.mode = .slowMode ↔ (Gauge.of p pre).bound ≤ x) ∧
      (0 ≤ t.elapsed → 0 ≤ x ∧ |1000 * x - t.elapsed| < 1000) := by
  refine ⟨fun hne => ?_, fun pre t post x hsplit hx => ⟨?_, fun helapsed => ?_⟩⟩
  · obtain ⟨hringed, -, hthreshold⟩ := gauged_turns h hfits
    refine ⟨hringed.lastFive hne, ?_⟩
    rw [hthreshold, Gauge.bound, if_neg hne]
  · have hpre : pre <+: turns := hsplit ▸ List.prefix_append _ _
    have hbefore := gauged_turns (h.split hsplit) fun pre' h' => hfits pre' (h'.trans hpre)
    rw [sample_mode hx, hbefore.threshold]
  · obtain ⟨net, m, d⟩ := t
    cases d with
    | ack type p =>
      simp only [Turn.sample] at hx
      split at hx
      · obtain rfl := Option.some.inj hx
        exact measuredLatency_bound _ _ helapsed
      · cases hx
    | _ => cases hx

/-- A `latency` message is out whose PUBACK will come after so many microseconds. -/
def latencyOut (lat : Int) : Deed :=
  .other (MosquittoDb.dbOpen Config.init fun _ => ⟨1, 1000 * lat, 1⟩)
    { (connected ticking (some 3) fivePacket).ctx with state := .active, sendTime := (1, 0) }
    (nomatch ·)

/-- Its PUBACK. -/
def latencyAcked : Deed := .ack .puback (.puback 1)

/-- Six samples: the first is gone from the mean, and the last is below the mean of the five
before it. -/
theorem adaptive_threshold_six :
    let m₀ := connected ticking (some 3) fivePacket
    let deeds := [7, 100, 250, 3, 80].flatMap (fun lat => [latencyOut lat, latencyAcked]) ++
      [latencyOut 41]
    let m := latencyAcked.exec .taking (deeds.foldl (fun m d => d.exec .taking m) m₀)
    m.ctx.latPre.Perm [100, 250, 3, 80, 41] ∧ (m.ctx.thresholdL.toNat : Int) = 94 ∧
      m.ctx.mode ≠ .slowMode := by
  intro m₀ deeds m
  let turns : List Turn := [] ++ Deed.turns .taking m₀ deeds
  let last : Turn := ⟨.taking, deeds.foldl (fun m d => d.exec .taking m) m₀, latencyAcked⟩
  have hrun : Turns m₀ (turns ++ [last]) m :=
    (turns_of_deeds (Turns.start : Turns m₀ [] _) .taking deeds).next .taking latencyAcked
  have hfits : ∀ pre ∈ (turns ++ [last]).inits, (Gauge.of fivePacket pre).Fits := by
    decide +kernel
  obtain ⟨hlast, hmode⟩ := adaptive_threshold hrun fun pre hpre =>
    hfits pre ((List.mem_inits _ _).mpr hpre)
  obtain ⟨hperm, hmean⟩ := hlast (by decide +kernel)
  have hlastFive : (Gauge.of fivePacket (turns ++ [last])).lastFive = [100, 250, 3, 80, 41] := by
    decide +kernel
  have hsix := (hmode turns last [] 41 rfl (by decide +kernel)).1
  have hbound : ¬ (Gauge.of fivePacket turns).bound ≤ 41 := by decide +kernel
  have hafter : last.after = m := rfl
  rw [hafter] at hsix
  refine ⟨hlastFive ▸ hperm, ?_, fun hslow => hbound (hsix.mp hslow)⟩
  rw [hmean, Gauge.mean, hlastFive]
  decide

end AdaptiveMqtt.Broker
