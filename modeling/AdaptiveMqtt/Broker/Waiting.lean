import AdaptiveMqtt.Broker.Sessions

/-!
# Clients that wait

A client that has lost its connection may wait for its session to expire, for the delay of its
will, or to be freed. An operation on a client leaves all the others in their lists, in the
order they had. `Tidy` is what holds of the registry between two events: who is in which list
has lost its connection, is there once, and has something to wait for.
-/

namespace AdaptiveMqtt.Broker

open Lib Db

namespace Party

/-- A client without an id that is to be freed. -/
def discarded (p : Party) : Party :=
  { p with state := .disused, id := none, removedFromById := p.removedFromById || p.id.isSome }

/-- A client without a connection, whose will waits or is done with. -/
def gone (now : Int) (p : Party) : Party :=
  if p.Delays then { p with sock := none, willDelayTime := now + p.willDelayInterval }
  else { p with sock := none }.willClear

end Party

namespace Registry

/-! ## One client at a time -/

/-- Nothing happens to any other client. -/
structure Only (c : CtxId) (r r' : Registry) : Prop where
  parties : ∀ d, d ≠ c → r'.parties d = r.parties d
  nextContext : r'.nextContext = r.nextContext
  lastExpiryCheck : r'.lastExpiryCheck = r.lastExpiryCheck
  lastDelayCheck : r'.lastDelayCheck = r.lastDelayCheck
  limit : r'.limit = r.limit
  now : r'.now = r.now
  expiryList : r'.expiryList.filter (· ≠ c) = r.expiryList.filter (· ≠ c)
  delayList : r'.delayList.filter (· ≠ c) = r.delayList.filter (· ≠ c)
  llForFree : r'.llForFree.filter (· ≠ c) = r.llForFree.filter (· ≠ c)

section Only

variable {r r' r'' : Registry} {c d : CtxId} {p q : Party} {f : Party → Party}

theorem Only.refl (c : CtxId) (r : Registry) : Only c r r :=
  ⟨fun _ _ => rfl, rfl, rfl, rfl, rfl, rfl, rfl, rfl, rfl⟩

theorem Only.trans (h : Only c r r') (h' : Only c r' r'') : Only c r r'' :=
  ⟨fun d hd => (h'.parties d hd).trans (h.parties d hd), h'.nextContext.trans h.nextContext,
    h'.lastExpiryCheck.trans h.lastExpiryCheck, h'.lastDelayCheck.trans h.lastDelayCheck,
    h'.limit.trans h.limit, h'.now.trans h.now, h'.expiryList.trans h.expiryList,
    h'.delayList.trans h.delayList, h'.llForFree.trans h.llForFree⟩

theorem Only.mem_expiryList (h : Only c r r') (hd : d ≠ c) :
    d ∈ r'.expiryList ↔ d ∈ r.expiryList := by
  have := congrArg (d ∈ ·) h.expiryList
  simpa [hd] using this

theorem Only.mem_delayList (h : Only c r r') (hd : d ≠ c) : d ∈ r'.delayList ↔ d ∈ r.delayList := by
  have := congrArg (d ∈ ·) h.delayList
  simpa [hd] using this

theorem Only.mem_llForFree (h : Only c r r') (hd : d ≠ c) : d ∈ r'.llForFree ↔ d ∈ r.llForFree := by
  have := congrArg (d ∈ ·) h.llForFree
  simpa [hd] using this

theorem only_modify (c : CtxId) (f : Party → Party) (r : Registry) : Only c r (r.modify c f) :=
  ⟨fun _ hd => Function.update_of_ne hd .., rfl, rfl, rfl, rfl, rfl, rfl, rfl, rfl⟩

theorem filter_insertBefore (less : CtxId → Bool) (c : CtxId) (l : List CtxId) :
    (Agenda.insertBefore less c l).filter (· ≠ c) = l.filter (· ≠ c) := by
  have hself : (c :: l.dropWhile less).filter (· ≠ c) = (l.dropWhile less).filter (· ≠ c) :=
    List.filter_cons_of_neg (by simp)
  unfold Agenda.insertBefore
  rw [List.filter_append, hself, ← List.filter_append, List.takeWhile_append_dropWhile]

theorem filter_erase (c : CtxId) (l : List CtxId) :
    (l.erase c).filter (· ≠ c) = l.filter (· ≠ c) := by
  induction l with
  | nil => rfl
  | cons a l ih =>
    by_cases ha : a = c
    · subst ha
      rw [List.erase_cons_head]
      simp
    · rw [List.erase_cons_tail (by simpa using ha), List.filter_cons, List.filter_cons, ih]

theorem only_expiryRemove (c : CtxId) (r : Registry) : Only c r (r.expiryRemove c) :=
  ⟨fun _ _ => rfl, rfl, rfl, rfl, rfl, rfl, filter_erase c _, rfl, rfl⟩

theorem only_delayRemove (c : CtxId) (r : Registry) : Only c r (r.delayRemove c) :=
  ⟨fun _ _ => rfl, rfl, rfl, rfl, rfl, rfl, rfl, filter_erase c _, rfl⟩

theorem only_expiryAdd (c : CtxId) (r : Registry) : Only c r (r.expiryAdd c) := by
  unfold expiryAdd
  split
  · exact .refl c r
  · split
    · exact .refl c r
    · exact (only_modify c _ r).trans
        ⟨fun _ _ => rfl, rfl, rfl, rfl, rfl, rfl, filter_insertBefore _ c _, rfl, rfl⟩

theorem only_delayAdd (c : CtxId) (r : Registry) : Only c r (r.delayAdd c) := by
  unfold delayAdd
  split
  · exact .refl c r
  · split
    · exact .refl c r
    · exact (only_modify c _ r).trans
        ⟨fun _ _ => rfl, rfl, rfl, rfl, rfl, rfl, rfl, filter_insertBefore _ c _, rfl⟩

theorem only_sendWill (c : CtxId) (r : Registry) : Only c r (r.sendWill c) := by
  unfold sendWill
  split
  · exact .refl c r
  · split
    · exact only_delayAdd c r
    · exact only_modify c _ r

theorem only_removeFromById (c : CtxId) (r : Registry) : Only c r (r.removeFromById c) := by
  unfold removeFromById
  split
  · split
    · exact .refl c r
    · exact (only_modify c _ r).trans ⟨fun _ _ => rfl, rfl, rfl, rfl, rfl, rfl, rfl, rfl, rfl⟩
  · exact .refl c r

theorem only_addToDisused (c : CtxId) (r : Registry) : Only c r (r.addToDisused c) := by
  have hfree : ∀ r : Registry, Only c r { r with llForFree := c :: r.llForFree } := fun r =>
    ⟨fun _ _ => rfl, rfl, rfl, rfl, rfl, rfl, rfl, rfl, List.filter_cons_of_neg (by simp)⟩
  unfold addToDisused
  split
  · exact .refl c r
  · split
    · exact .refl c r
    · exact (((only_modify c _ r).trans (only_removeFromById c _)).trans (only_modify c _ _)).trans
        (hfree _)

theorem only_disconnect (c : CtxId) (r : Registry) : Only c r (r.disconnect c) := by
  have hend : ∀ r : Registry, Only c r (r.endSession c) := by
    intro r
    unfold endSession
    split
    · exact .refl c r
    · split
      · split
        · exact only_addToDisused c r
        · exact .refl c r
      · exact only_expiryAdd c r
  unfold disconnect
  split
  · exact .refl c r
  · split
    · exact .refl c r
    · exact (((only_modify c _ r).trans (only_sendWill c _)).trans (hend _)).trans
        (only_modify c _ _)

theorem only_expire (c : CtxId) (r : Registry) : Only c r (r.expire c) :=
  ((((only_expiryRemove c r).trans (only_modify c _ _)).trans (only_delayRemove c _)).trans
    (only_sendWill c _)).trans (only_addToDisused c _)

theorem only_fire (c : CtxId) (r : Registry) : Only c r (r.fire c) := by
  have hsent := ((only_delayRemove c r).trans
    (only_modify c (fun p => { p with willDelayInterval := 0 }) _)).trans (only_sendWill c _)
  unfold fire
  simp only
  split
  · exact hsent.trans (only_addToDisused c _)
  · exact hsent

end Only

/-! ## What the operations do to a client -/

/-- The registry with a client as it is in the middle of a function, and the lists. -/
def place (r : Registry) (c : CtxId) (p : Party) (byId : Bytes → Option CtxId)
    (expiry delay free : List CtxId) : Registry :=
  { r with parties := Function.update r.parties c (some p), contextsById := byId
           expiryList := expiry, delayList := delay, llForFree := free }

/-- The ids after that of a client was taken out. -/
def forget (p : Party) (byId : Bytes → Option CtxId) : Bytes → Option CtxId :=
  if p.removedFromById then byId else p.id.elim byId fun id => Function.update byId id none

/-- `delay_list` with a client whose will has to wait. -/
def delayed (r : Registry) (c : CtxId) (p : Party) (delay : List CtxId) : List CtxId :=
  Agenda.insertBefore (fun d => (r.parties d).any fun d =>
    willDelayCmp d.willDelayInterval p.willDelayInterval < 0) c delay

def expiring (r : Registry) (c : CtxId) (p : Party) (expiry : List CtxId) : List CtxId :=
  Agenda.insertBefore (fun d => (r.parties d).any fun d =>
    d.sessionExpiryTime < r.deadline p.sessionExpiryInterval) c expiry

section Place

variable {r : Registry} {c d : CtxId} {p : Party} {f : Party → Party}
  {byId : Bytes → Option CtxId} {expiry delay free : List CtxId}

@[simp] theorem place_self : (r.place c p byId expiry delay free).parties c = some p :=
  Function.update_self ..

theorem place_ne (h : d ≠ c) : (r.place c p byId expiry delay free).parties d = r.parties d :=
  Function.update_of_ne h ..

theorem eq_place (hp : r.parties c = some p) :
    r = r.place c p r.contextsById r.expiryList r.delayList r.llForFree := by
  unfold place
  rw [← hp, Function.update_eq_self]

@[simp] theorem modify_place :
    (r.place c p byId expiry delay free).modify c f = r.place c (f p) byId expiry delay free := by
  simp [modify, place]

@[simp] theorem expiryRemove_place : (r.place c p byId expiry delay free).expiryRemove c =
    r.place c p byId (expiry.erase c) delay free := rfl

@[simp] theorem delayRemove_place : (r.place c p byId expiry delay free).delayRemove c =
    r.place c p byId expiry (delay.erase c) free := rfl

/-- Nobody in the list is the client that changes. -/
theorem insertBefore_place {g : Party → Bool} {l : List CtxId} (hc : c ∉ l) :
    Agenda.insertBefore (fun d => ((r.place c p byId expiry delay free).parties d).any g) c l =
      Agenda.insertBefore (fun d => (r.parties d).any g) c l :=
  Agenda.insertBefore_congr fun d hd => by
    have hne : d ≠ c := fun h => hc (h ▸ hd)
    rw [place_ne hne]

theorem sendWill_place_clear (hd : ¬ p.Delays) : (r.place c p byId expiry delay free).sendWill c =
    r.place c p.willClear byId expiry delay free := by
  unfold sendWill
  rw [place_self]
  simp only
  rw [if_neg hd, modify_place]

theorem delayAdd_place (hc : c ∉ delay) :
    (r.place c p byId expiry delay free).delayAdd c =
      r.place c { p with willDelayTime := r.now + p.willDelayInterval } byId expiry
        (r.delayed c p delay) free := by
  have hdelay : (r.place c p byId expiry delay free).delayList = delay := rfl
  unfold delayAdd
  rw [place_self]
  simp only
  rw [if_neg (hdelay ▸ hc), modify_place]
  exact congrArg (fun l => r.place c _ byId expiry l free) (insertBefore_place hc)

theorem sendWill_place_delay (hd : p.Delays) (hc : c ∉ delay) :
    (r.place c p byId expiry delay free).sendWill c =
      r.place c { p with willDelayTime := r.now + p.willDelayInterval } byId expiry
        (r.delayed c p delay) free := by
  unfold sendWill
  rw [place_self]
  simp only
  rw [if_pos hd, delayAdd_place hc]

theorem expiryAdd_place (hend : ¬ r.Endless p.sessionExpiryInterval) (hc : c ∉ expiry) :
    (r.place c p byId expiry delay free).expiryAdd c =
      r.place c { p with sessionExpiryTime := r.deadline p.sessionExpiryInterval } byId
        (r.expiring c p expiry) delay free := by
  unfold expiryAdd
  rw [place_self]
  simp only
  rw [if_neg (show ¬ (r.place c p byId expiry delay free).Endless p.sessionExpiryInterval from hend),
    modify_place]
  exact congrArg (fun l => r.place c _ byId l delay free) (insertBefore_place hc)

theorem expiryAdd_place_endless (hend : r.Endless p.sessionExpiryInterval) :
    (r.place c p byId expiry delay free).expiryAdd c = r.place c p byId expiry delay free := by
  unfold expiryAdd
  rw [place_self]
  exact if_pos hend

theorem removeFromById_place : (r.place c p byId expiry delay free).removeFromById c =
    r.place c { p with removedFromById := p.removedFromById || p.id.isSome } (forget p byId) expiry
      delay free := by
  obtain ⟨id, sock, state, protocol, bridged, cleanStart, interval, time, will, delayInterval,
    delayTime, removed⟩ := p
  unfold removeFromById forget
  rw [place_self]
  cases id with
  | none =>
    cases removed <;> rfl
  | some id =>
    cases removed with
    | true => rfl
    | false => simp [place, modify]

theorem addToDisused_place (hs : p.state ≠ .disused) :
    (r.place c p byId expiry delay free).addToDisused c =
      r.place c p.discarded (forget p byId) expiry delay (c :: free) := by
  unfold addToDisused
  rw [place_self]
  simp only
  rw [if_neg hs, modify_place, removeFromById_place, modify_place, Party.setState, if_pos hs]
  rfl

theorem addToDisused_place_disused (hs : p.state = .disused) :
    (r.place c p byId expiry delay free).addToDisused c = r.place c p byId expiry delay free := by
  unfold addToDisused
  rw [place_self]
  exact if_pos hs

end Place

/-! ## The end of a connection -/

/-- `delay_list` when a client has lost its connection. -/
def waiting (r : Registry) (c : CtxId) (p : Party) : List CtxId :=
  if p.Delays then r.delayed c p r.delayList else r.delayList

/-- What `context__disconnect` can do: the client is to be freed, its session stays without
an end, or it stays with one. -/
inductive Departs (r : Registry) (c : CtxId) (p : Party) : Registry → Prop where
  | discard (hzero : p.sessionExpiryInterval = 0) (hdelay : ¬ p.Delays) :
    Departs r c p (r.place c (p.gone r.now).discarded (forget p r.contextsById) r.expiryList
      r.delayList (c :: r.llForFree))
  | stay (hzero : p.sessionExpiryInterval = 0 → p.Delays)
    (hend : p.sessionExpiryInterval ≠ 0 → r.Endless p.sessionExpiryInterval) :
    Departs r c p (r.place c { p.gone r.now with state := .disconnected } r.contextsById
      r.expiryList (r.waiting c p) r.llForFree)
  | expire (hne : p.sessionExpiryInterval ≠ 0) (hend : ¬ r.Endless p.sessionExpiryInterval) :
    Departs r c p (r.place c { p.gone r.now with
      state := .disconnected, sessionExpiryTime := r.deadline p.sessionExpiryInterval }
      r.contextsById (r.expiring c p r.expiryList) (r.waiting c p) r.llForFree)

section Departs

variable {r : Registry} {c : CtxId} {p : Party}

theorem gone_fields (now : Int) (p : Party) :
    (p.gone now).sock = none ∧ (p.gone now).state = p.state ∧ (p.gone now).id = p.id ∧
      (p.gone now).removedFromById = p.removedFromById ∧ (p.gone now).bridged = p.bridged ∧
      (p.gone now).sessionExpiryInterval = p.sessionExpiryInterval ∧
      (p.gone now).sessionExpiryTime = p.sessionExpiryTime := by
  unfold Party.gone
  split
  · exact ⟨rfl, rfl, rfl, rfl, rfl, rfl, rfl⟩
  · unfold Party.willClear
    split <;> exact ⟨rfl, rfl, rfl, rfl, rfl, rfl, rfl⟩

theorem gone_delays {now : Int} (h : p.Delays) :
    p.gone now = { p with sock := none, willDelayTime := now + p.willDelayInterval } := if_pos h

theorem willClear_cleared (hu : p.will = none → p.willDelayInterval = 0) :
    p.willClear.will = none ∧ p.willClear.willDelayInterval = 0 := by
  unfold Party.willClear
  split
  · exact ⟨rfl, rfl⟩
  · rename_i hwill
    have hnone : p.will = none := Option.not_isSome_iff_eq_none.mp hwill
    exact ⟨hnone, hu hnone⟩

theorem gone_cleared {now : Int} (h : ¬ p.Delays) (hu : p.will = none → p.willDelayInterval = 0) :
    (p.gone now).will = none ∧ (p.gone now).willDelayInterval = 0 := by
  unfold Party.gone
  rw [if_neg h]
  exact willClear_cleared (p := { p with sock := none }) hu

theorem setState_of_ne {state : ClientState} (h : p.state ≠ .disused) :
    p.setState state = { p with state } := if_pos h

/-- The will of a client that has closed its socket. -/
theorem sendWill_eq (hp : r.parties c = some p) (hc : c ∉ r.delayList) :
    (r.modify c (·.socketClose)).sendWill c =
      r.place c (p.gone r.now) r.contextsById r.expiryList (r.waiting c p) r.llForFree := by
  conv_lhs => rw [eq_place hp, modify_place]
  by_cases hd : p.Delays
  · rw [sendWill_place_delay (p := p.socketClose) hd hc, waiting, if_pos hd, gone_delays hd]
    rfl
  · rw [sendWill_place_clear (p := p.socketClose) hd, waiting, if_neg hd, Party.gone, if_neg hd]
    rfl

theorem departs_disconnect (hp : r.parties c = some p) (hs : p.state ≠ .disconnected)
    (hs' : p.state ≠ .disused) (hexpiry : c ∉ r.expiryList) (hdelay : c ∉ r.delayList)
    (hu : p.will = none → p.willDelayInterval = 0) (hb : p.bridged = false) :
    Departs r c p (r.disconnect c) := by
  obtain ⟨-, hstate, hid, hremoved, hbridged, hinterval, -⟩ := gone_fields r.now p
  have hset : ∀ q : Party, q.state = p.state → q.setState .disconnected =
      { q with state := .disconnected } := fun q hq => setState_of_ne (hq ▸ hs')
  unfold disconnect
  rw [hp]
  simp only
  rw [if_neg hs, sendWill_eq hp hdelay]
  unfold endSession
  rw [place_self]
  simp only
  rw [hinterval, hbridged, hb]
  by_cases hzero : p.sessionExpiryInterval = 0
  · rw [if_pos hzero]
    by_cases hd : p.Delays
    · have hpos : (p.gone r.now).willDelayInterval ≠ 0 := by
        rw [gone_delays hd]
        exact hd.2.2.ne'
      rw [if_neg fun h => hpos h.2, modify_place, hset _ hstate]
      exact .stay (fun _ => hd) fun h => absurd hzero h
    · have hforget : forget (p.gone r.now) r.contextsById = forget p r.contextsById := by
        rw [forget, forget, hid, hremoved]
      have hdis : (p.gone r.now).discarded.setState .disconnected = (p.gone r.now).discarded :=
        if_neg fun h => h rfl
      rw [if_pos ⟨rfl, (gone_cleared hd hu).2⟩, addToDisused_place (hstate ▸ hs'), modify_place,
        hforget, hdis, waiting, if_neg hd]
      exact .discard hzero hd
  · rw [if_neg hzero]
    by_cases hend : r.Endless p.sessionExpiryInterval
    · rw [expiryAdd_place_endless (hinterval ▸ hend), modify_place, hset _ hstate]
      exact .stay (fun h => absurd h hzero) fun _ => hend
    · have hset' : ∀ time : Int,
          Party.setState .disconnected { p.gone r.now with sessionExpiryTime := time } =
            { p.gone r.now with state := .disconnected, sessionExpiryTime := time } :=
        fun time => setState_of_ne (hstate ▸ hs')
      rw [expiryAdd_place (hinterval ▸ hend) hexpiry, modify_place, hset', hinterval, expiring,
        hinterval]
      exact .expire hzero hend

/-- A client that is to be freed has nothing left to lose. -/
theorem disconnect_disused (hp : r.parties c = some p) (hs : p.state = .disused)
    (hsock : p.sock = none) (hzero : p.sessionExpiryInterval = 0) (hwill : p.will = none) :
    r.disconnect c = r := by
  have hd : ¬ p.socketClose.Delays := fun h => by
    have := h.1
    rw [show p.socketClose.will = none from hwill] at this
    cases this
  have hclose : p.socketClose = p := by
    show { p with sock := none } = p
    rw [← hsock]
  have hclear : p.socketClose.willClear = p := by
    rw [hclose]
    exact if_neg (by simp [hwill])
  have hset : p.setState .disconnected = p := if_neg (not_not.mpr hs)
  have hne : ¬ p.state = .disconnected := fun h => nomatch hs.symm.trans h
  unfold disconnect
  rw [hp]
  simp only
  rw [if_neg hne]
  conv_lhs => rw [eq_place hp, modify_place, sendWill_place_clear hd, hclear]
  unfold endSession
  rw [place_self]
  simp only
  rw [if_pos hzero]
  split
  · rw [addToDisused_place_disused hs, modify_place, hset, ← eq_place hp]
  · rw [modify_place, hset, ← eq_place hp]

theorem willClear_fields (p : Party) :
    p.willClear.state = p.state ∧ p.willClear.sessionExpiryInterval = p.sessionExpiryInterval ∧
      ∀ byId, forget p.willClear byId = forget p byId := by
  unfold Party.willClear
  split <;> exact ⟨rfl, rfl, fun _ => rfl⟩

theorem addToDisused_willClear {byId : Bytes → Option CtxId} {expiry delay free : List CtxId}
    (hs : p.state ≠ .disused) : (r.place c p.willClear byId expiry delay free).addToDisused c =
      r.place c p.willClear.discarded (forget p byId) expiry delay (c :: free) := by
  obtain ⟨hstate, -, hforget⟩ := willClear_fields p
  rw [addToDisused_place fun h => hs (hstate.symm.trans h), hforget]

/-- One round of `session_expiry__check`. -/
theorem expire_eq (hp : r.parties c = some p) (hs : p.state ≠ .disused) :
    r.expire c =
      r.place c { p with sessionExpiryInterval := 0, willDelayInterval := 0 }.willClear.discarded
        (forget p r.contextsById) (r.expiryList.erase c) (r.delayList.erase c)
        (c :: r.llForFree) := by
  have hd : ¬ Party.Delays { p with sessionExpiryInterval := 0, willDelayInterval := 0 } := fun h =>
    absurd h.2.2 (lt_irrefl 0)
  unfold expire
  conv_lhs => rw [eq_place hp]
  simp only
  rw [expiryRemove_place, modify_place, delayRemove_place, sendWill_place_clear hd,
    addToDisused_willClear (by exact hs)]
  rfl

/-- One round of `will_delay__check`. -/
theorem fire_eq (hp : r.parties c = some p) (hs : p.state ≠ .disused) :
    r.fire c =
      let q := { p with willDelayInterval := 0 }.willClear
      if p.sessionExpiryInterval = 0 then
        r.place c q.discarded (forget p r.contextsById) r.expiryList (r.delayList.erase c)
          (c :: r.llForFree)
      else r.place c q r.contextsById r.expiryList (r.delayList.erase c) r.llForFree := by
  have hd : ¬ Party.Delays { p with willDelayInterval := 0 } := fun h => absurd h.2.2 (lt_irrefl 0)
  unfold fire
  conv_lhs => rw [eq_place hp]
  simp only
  rw [delayRemove_place, modify_place, sendWill_place_clear hd, place_self, Option.any_some,
    (willClear_fields _).2.1]
  by_cases hzero : p.sessionExpiryInterval = 0
  · simp only [hzero, decide_true, if_true]
    rw [addToDisused_willClear (by exact hs)]
    rfl
  · simp only [hzero, decide_false, if_false]
    rfl

end Departs

/-! ## Between two events -/

def expiryTime (r : Registry) (c : CtxId) : Int := (r.parties c).elim 0 (·.sessionExpiryTime)

/-- A client fits the lists it is in. -/
structure Suits (r : Registry) (c : CtxId) (p : Party) : Prop where
  expiring : c ∈ r.expiryList → p.state = .disconnected ∧ p.sock = none ∧
    p.sessionExpiryInterval ≠ 0 ∧ ¬ r.Endless p.sessionExpiryInterval
  delaying : c ∈ r.delayList → p.state = .disconnected ∧ p.sock = none ∧ p.Delays
  doomed : c ∈ r.llForFree → p.state = .disused
  disused : p.state = .disused → p.sock = none ∧ p.sessionExpiryInterval = 0 ∧ p.will = none ∧
    p.id = none
  pending : p.state = .disconnected → p.will ≠ none → c ∈ r.delayList
  undelayed : p.will = none → p.willDelayInterval = 0
  plain : p.bridged = false
  allocated : c < r.nextContext
  closed : p.state = .disconnected → p.sock = none

/-- What holds between two events. -/
structure Tidy (r : Registry) : Prop where
  suits : ∀ {c p}, r.parties c = some p → Suits r c p
  expiring : ∀ c ∈ r.expiryList, ∃ p, r.parties c = some p
  delaying : ∀ c ∈ r.delayList, ∃ p, r.parties c = some p
  doomed : ∀ c ∈ r.llForFree, c < r.nextContext
  expiryNodup : r.expiryList.Nodup
  delayNodup : r.delayList.Nodup
  sorted : r.expiryList.Pairwise fun c d => r.expiryTime c ≤ r.expiryTime d

section Tidy

variable {r r' : Registry} {c d : CtxId} {p q : Party}

theorem Only.expiryTime (h : Only c r r') (hd : d ≠ c) : r'.expiryTime d = r.expiryTime d := by
  unfold Registry.expiryTime
  rw [h.parties d hd]

/-- A client that has changed must fit its lists; the others still do. -/
theorem Tidy.only (h : Tidy r) (ho : Only c r r') (hp : r'.parties c = some q) (hs : Suits r' c q)
    (hexpiry : r'.expiryList.Nodup) (hdelay : r'.delayList.Nodup)
    (hsorted : r'.expiryList.Pairwise fun c d => r'.expiryTime c ≤ r'.expiryTime d) : Tidy r' := by
  refine ⟨fun {d p} hd => ?_, fun d hd => ?_, fun d hd => ?_, fun d hd => ?_, hexpiry, hdelay, hsorted⟩
  · by_cases hdc : d = c
    · subst hdc
      cases hp.symm.trans hd
      exact hs
    · have hsd := h.suits ((ho.parties d hdc).symm.trans hd)
      exact ⟨fun hm => by rw [Endless, ho.limit]; exact hsd.expiring ((ho.mem_expiryList hdc).mp hm),
        fun hm => hsd.delaying ((ho.mem_delayList hdc).mp hm),
        fun hm => hsd.doomed ((ho.mem_llForFree hdc).mp hm), hsd.disused,
        fun hd hw => (ho.mem_delayList hdc).mpr (hsd.pending hd hw), hsd.undelayed, hsd.plain,
        ho.nextContext ▸ hsd.allocated, hsd.closed⟩
  · by_cases hdc : d = c
    · exact ⟨q, hdc ▸ hp⟩
    · rw [ho.parties d hdc]
      exact h.expiring d ((ho.mem_expiryList hdc).mp hd)
  · by_cases hdc : d = c
    · exact ⟨q, hdc ▸ hp⟩
    · rw [ho.parties d hdc]
      exact h.delaying d ((ho.mem_delayList hdc).mp hd)
  · rw [ho.nextContext]
    by_cases hdc : d = c
    · rw [hdc, ← ho.nextContext]
      exact hs.allocated
    · exact h.doomed d ((ho.mem_llForFree hdc).mp hd)

/-- The order stays when the client is not in the list. -/
theorem Tidy.sorted_notMem (h : Tidy r) (ho : Only c r r') (hc : c ∉ r'.expiryList) :
    r'.expiryList.Pairwise fun c d => r'.expiryTime c ≤ r'.expiryTime d := by
  have hself : r'.expiryList.filter (· ≠ c) = r'.expiryList :=
    List.filter_eq_self.mpr fun d hd => by
      have hne : d ≠ c := fun e => hc (e ▸ hd)
      simpa using hne
  have hsub : r'.expiryList.Sublist r.expiryList := by
    rw [← hself, ho.expiryList]
    exact List.filter_sublist
  refine (h.sorted.sublist hsub).imp_of_mem fun {a b} ha hb hle => ?_
  rw [ho.expiryTime fun e => hc (e ▸ ha), ho.expiryTime fun e => hc (e ▸ hb)]
  exact hle

/-- A client whose connection is open, or that is not done with it, waits for nothing. -/
theorem Tidy.notMem (h : Tidy r) (hp : r.parties c = some p) (hs : p.state ≠ .disconnected) :
    c ∉ r.expiryList ∧ c ∉ r.delayList :=
  ⟨fun hm => hs ((h.suits hp).expiring hm).1, fun hm => hs ((h.suits hp).delaying hm).1⟩

theorem only_place {byId : Bytes → Option CtxId} {expiry delay free : List CtxId}
    (hexpiry : expiry.filter (· ≠ c) = r.expiryList.filter (· ≠ c))
    (hdelay : delay.filter (· ≠ c) = r.delayList.filter (· ≠ c))
    (hfree : free.filter (· ≠ c) = r.llForFree.filter (· ≠ c)) :
    Only c r (r.place c p byId expiry delay free) :=
  ⟨fun _ hd => place_ne hd, rfl, rfl, rfl, rfl, rfl, hexpiry, hdelay, hfree⟩

theorem sorted_expiring (h : Tidy r) (hc : c ∉ r.expiryList) {byId : Bytes → Option CtxId}
    {delay free : List CtxId} (htime : q.sessionExpiryTime = r.deadline p.sessionExpiryInterval) :
    let r' := r.place c q byId (r.expiring c p r.expiryList) delay free
    r'.expiryList.Pairwise fun c d => r'.expiryTime c ≤ r'.expiryTime d := by
  intro r'
  have hself : r'.expiryTime c = r.deadline p.sessionExpiryInterval := by
    rw [Registry.expiryTime, place_self]
    exact htime
  have hother : ∀ d ∈ r.expiryList, r'.expiryTime d = r.expiryTime d ∧
      ((r.parties d).any (fun d => d.sessionExpiryTime < r.deadline p.sessionExpiryInterval) = true ↔
        r.expiryTime d < r.deadline p.sessionExpiryInterval) := by
    intro d hd
    obtain ⟨x, hx⟩ := h.expiring d hd
    have hne : d ≠ c := fun e => hc (e ▸ hd)
    rw [Registry.expiryTime, Registry.expiryTime, place_ne hne, hx]
    exact ⟨rfl, by simp⟩
  refine Agenda.sorted_insertBefore ?_ (fun d hd hless => ?_) fun d hd hless => ?_
  · refine h.sorted.imp_of_mem fun {a b} ha hb hle => ?_
    rw [(hother a ha).1, (hother b hb).1]
    exact hle
  · rw [(hother d hd).1, hself]
    exact ((hother d hd).2.mp hless).le
  · rw [(hother d hd).1, hself]
    exact not_lt.mp fun hlt => hless ((hother d hd).2.mpr hlt)

/-- A client that is to be freed. -/
theorem suits_discarded (hs : r.Suits c p) (hnext : r'.nextContext = r.nextContext)
    (hexpiry : c ∉ r'.expiryList) (hdelay : c ∉ r'.delayList) (hq : q.sock = none ∧
      q.sessionExpiryInterval = 0 ∧ q.will = none ∧ q.willDelayInterval = 0 ∧
      q.bridged = p.bridged) : Suits r' c q.discarded :=
  ⟨fun h => absurd h hexpiry, fun h => absurd h hdelay, fun _ => rfl,
    fun _ => ⟨hq.1, hq.2.1, hq.2.2.1, rfl⟩, fun h => (nomatch h), fun _ => hq.2.2.2.1,
    hq.2.2.2.2.trans hs.plain, hnext ▸ hs.allocated, fun _ => hq.1⟩

theorem tidy_disconnect (h : Tidy r) (c : CtxId) : Tidy (r.disconnect c) := by
  cases hp : r.parties c with
  | none =>
    have hsame : r.disconnect c = r := by
      unfold disconnect
      rw [hp]
    rw [hsame]
    exact h
  | some p =>
    have hs := h.suits hp
    by_cases hdis : p.state = .disused
    · obtain ⟨hsock, hzero, hwill, -⟩ := hs.disused hdis
      rw [disconnect_disused hp hdis hsock hzero hwill]
      exact h
    by_cases hdisc : p.state = .disconnected
    · have hsame : r.disconnect c = r := by
        unfold disconnect
        rw [hp]
        exact if_pos hdisc
      rw [hsame]
      exact h
    obtain ⟨hexpiry, hdelay⟩ := h.notMem hp hdisc
    have hdoomed : c ∉ r.llForFree := fun hm => hdis (hs.doomed hm)
    obtain ⟨hsock, -, -, -, hbridged, hinterval, htime⟩ := gone_fields r.now p
    have ho := only_disconnect c r
    have hdep := departs_disconnect hp hdisc hdis hexpiry hdelay hs.undelayed hs.plain
    -- what the two kinds of staying have in common
    have hwait : ∀ {d}, d ∈ r.waiting c p → d = c ∧ p.Delays ∨ d ∈ r.delayList := by
      intro d hd
      unfold waiting at hd
      split at hd
      · rename_i hdel
        rcases Agenda.mem_insertBefore.mp hd with hd | hd
        · exact .inl ⟨hd, hdel⟩
        · exact .inr hd
      · exact .inr hd
    have hmem : p.Delays → c ∈ r.waiting c p := by
      intro hdel
      unfold waiting
      rw [if_pos hdel]
      exact Agenda.mem_insertBefore.mpr (.inl rfl)
    have hnodup : (r.waiting c p).Nodup := by
      unfold waiting
      split
      · exact Agenda.nodup_insertBefore hdelay h.delayNodup
      · exact h.delayNodup
    have hdelays : ∀ time, p.Delays →
        Party.Delays { p.gone r.now with state := .disconnected, sessionExpiryTime := time } := by
      intro time hdel
      rw [gone_delays hdel]
      exact ⟨hdel.1, (nomatch ·), hdel.2.2⟩
    have hcleared : ∀ w, (p.gone r.now).will = w → w ≠ none → p.Delays := by
      intro w hw hne
      by_contra hdel
      exact hne (hw ▸ (gone_cleared hdel hs.undelayed).1)
    have hundelayed : (p.gone r.now).will = none → (p.gone r.now).willDelayInterval = 0 := by
      intro hw
      by_cases hdel : p.Delays
      · rw [gone_delays hdel] at hw
        have hnone : p.will = none := hw
        have := hdel.1
        rw [hnone] at this
        cases this
      · exact (gone_cleared hdel hs.undelayed).2
    generalize r.disconnect c = r' at ho hdep
    cases hdep with
    | discard hzero hdel =>
      refine h.only ho place_self (suits_discarded hs rfl hexpiry hdelay ⟨hsock, ?_, ?_⟩)
        h.expiryNodup h.delayNodup (h.sorted_notMem ho hexpiry)
      · rw [hinterval]
        exact hzero
      · exact ⟨(gone_cleared hdel hs.undelayed).1, (gone_cleared hdel hs.undelayed).2, hbridged⟩
    | stay hzero hend =>
      refine h.only ho place_self ⟨fun hm => absurd hm hexpiry, fun hm => ?_, fun hm => absurd hm hdoomed,
        fun e => (nomatch e), fun _ hw => hmem (hcleared _ rfl hw), hundelayed, hbridged.trans hs.plain,
        hs.allocated, fun _ => hsock⟩ h.expiryNodup hnodup (h.sorted_notMem ho hexpiry)
      rcases hwait hm with ⟨-, hdel⟩ | hm
      · exact ⟨rfl, hsock, hdelays _ hdel⟩
      · exact absurd hm hdelay
    | expire hne hend =>
      refine h.only ho place_self ⟨fun hm => ?_, fun hm => ?_, fun hm => absurd hm hdoomed,
        fun e => (nomatch e), fun _ hw => hmem (hcleared _ rfl hw), hundelayed, hbridged.trans hs.plain,
        hs.allocated, fun _ => hsock⟩ (Agenda.nodup_insertBefore hexpiry h.expiryNodup) hnodup
        (sorted_expiring h hexpiry rfl)
      · exact ⟨rfl, hsock, hinterval ▸ hne, hinterval ▸ hend⟩
      · rcases hwait hm with ⟨-, hdel⟩ | hm
        · exact ⟨rfl, hsock, hdelays _ hdel⟩
        · exact absurd hm hdelay

end Tidy

end Registry

end AdaptiveMqtt.Broker
