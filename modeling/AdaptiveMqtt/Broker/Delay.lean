import AdaptiveMqtt.Broker.Tidy

/-!
# Delayed wills

`will_delay__check` stops at the first will that is not due, and `will_delay__add` puts a will
where its interval belongs, not the time at which it is due. Runs of the functions on
`delay_list` are exact as long as the two orders agree whenever a will is added.
-/

namespace AdaptiveMqtt.Broker

open Lib Db

namespace Registry

variable {r r' : Registry} {c d : CtxId} {p q : Party} {l : List CtxId}

def willTime (r : Registry) (c : CtxId) : Int := (r.parties c).elim 0 (·.willDelayTime)

/-- Wills wait in the order in which they are due. -/
structure Queue (r : Registry) : Prop where
  waiting : ∀ c ∈ r.delayList, ∃ p, r.parties c = some p
  nodup : r.delayList.Nodup
  sorted : r.delayList.Pairwise fun c d => r.willTime c ≤ r.willTime d

theorem willTime_eq (h : r'.parties d = r.parties d) : r'.willTime d = r.willTime d := by
  unfold willTime
  rw [h]

/-! ## Adding and removing -/

theorem delayAdd_eq (hp : r.parties c = some p) (hc : c ∉ r.delayList) :
    r.delayAdd c = r.place c { p with willDelayTime := r.now + p.willDelayInterval } r.contextsById
      r.expiryList (r.delayed c p r.delayList) r.llForFree := by
  conv_lhs => rw [eq_place hp]
  exact delayAdd_place hc

theorem queue_delayAdd (h : Queue r)
    (hin : ∀ p, r.parties c = some p → c ∉ r.delayList →
      let less := fun d => (r.parties d).any fun d =>
        willDelayCmp d.willDelayInterval p.willDelayInterval < 0
      (∀ d ∈ r.delayList.takeWhile less, r.willTime d ≤ r.now + p.willDelayInterval) ∧
        ∀ d ∈ r.delayList.dropWhile less, r.now + p.willDelayInterval ≤ r.willTime d) :
    Queue (r.delayAdd c) := by
  have hsame : ∀ r', r' = r → Queue r' := by
    rintro r' rfl
    exact h
  cases hp : r.parties c with
  | none =>
    refine hsame _ ?_
    unfold delayAdd
    rw [hp]
  | some p =>
    by_cases hc : c ∈ r.delayList
    · refine hsame _ ?_
      unfold delayAdd
      rw [hp]
      exact if_pos hc
    · obtain ⟨hfront, hback⟩ := hin p hp hc
      rw [delayAdd_eq hp hc]
      have hne : ∀ d ∈ r.delayList, d ≠ c := fun d hd e => hc (e ▸ hd)
      generalize hq : { p with willDelayTime := r.now + p.willDelayInterval } = q
      have hself : (r.place c q r.contextsById r.expiryList (r.delayed c p r.delayList)
          r.llForFree).willTime c = r.now + p.willDelayInterval := by
        rw [willTime, place_self, ← hq]
        rfl
      have hother : ∀ d ∈ r.delayList, (r.place c q r.contextsById r.expiryList
          (r.delayed c p r.delayList) r.llForFree).willTime d = r.willTime d := fun d hd =>
        willTime_eq (place_ne (hne d hd))
      refine ⟨fun d hd => ?_, Agenda.nodup_insertBefore hc h.nodup,
        Agenda.pairwise_insertBefore ?_ (fun d hd => ?_) fun d hd => ?_⟩
      · rcases Agenda.mem_insertBefore.mp hd with rfl | hd
        · exact ⟨q, place_self⟩
        · obtain ⟨x, hx⟩ := h.waiting d hd
          exact ⟨x, (place_ne (hne d hd)).trans hx⟩
      · refine h.sorted.imp_of_mem fun {a b} ha hb hle => ?_
        rw [hother a ha, hother b hb]
        exact hle
      · rw [hself, hother d (List.takeWhile_subset _ hd)]
        exact hfront d hd
      · rw [hself, hother d (List.dropWhile_subset _ hd)]
        exact hback d hd

theorem queue_delayRemove (h : Queue r) (c : CtxId) : Queue (r.delayRemove c) :=
  ⟨fun d hd => h.waiting d (List.mem_of_mem_erase hd), h.nodup.erase c,
    h.sorted.sublist List.erase_sublist⟩

/-! ## The check -/

/-- A round of the check takes a will out of the list and ends it. -/
theorem fire_place (hp : r.parties c = some p) : ∃ q byId free, q.will = none ∧
    r.fire c = r.place c q byId r.expiryList (r.delayList.erase c) free := by
  have hd : ¬ Party.Delays { p with willDelayInterval := 0 } := fun h => absurd h.2.2 (lt_irrefl 0)
  have hwill := (willClear_cleared (p := { p with willDelayInterval := 0 }) fun _ => rfl).1
  have hfire : r.fire c =
      if (Party.willClear { p with willDelayInterval := 0 }).sessionExpiryInterval = 0 then
        (r.place c (Party.willClear { p with willDelayInterval := 0 }) r.contextsById r.expiryList
          (r.delayList.erase c) r.llForFree).addToDisused c
      else r.place c (Party.willClear { p with willDelayInterval := 0 }) r.contextsById r.expiryList
        (r.delayList.erase c) r.llForFree := by
    unfold fire
    conv_lhs => rw [eq_place hp]
    simp only
    rw [delayRemove_place, modify_place, sendWill_place_clear hd, place_self, Option.any_some]
    simp only [decide_eq_true_iff]
  generalize Party.willClear { p with willDelayInterval := 0 } = q at hwill hfire
  rw [hfire]
  split
  · by_cases hs : q.state = .disused
    · rw [addToDisused_place_disused hs]
      exact ⟨q, _, _, hwill, rfl⟩
    · rw [addToDisused_place hs]
      exact ⟨q.discarded, _, _, hwill, rfl⟩
  · exact ⟨q, _, _, hwill, rfl⟩

/-- The wills of some clients have been sent, and nothing else has happened. -/
structure Fired (l : List CtxId) (r r' : Registry) : Prop where
  delayList : r'.delayList = r.delayList.filter (· ∉ l)
  fired : ∀ c ∈ l, ∃ q, r'.parties c = some q ∧ q.will = none
  others : ∀ c, c ∉ l → r'.parties c = r.parties c

theorem fired_foldl (hnodup : r.delayList.Nodup) (hl : l.Nodup)
    (hsub : ∀ c ∈ l, ∃ p, r.parties c = some p) :
    Fired l r (l.foldl (fun r c => r.fire c) r) := by
  induction l generalizing r with
  | nil =>
    exact ⟨(List.filter_eq_self.mpr fun _ _ => by simp).symm, fun c hc => (nomatch hc),
      fun _ _ => rfl⟩
  | cons c l ih =>
    obtain ⟨hc, hrest⟩ := List.nodup_cons.mp hl
    obtain ⟨⟨p, hp⟩, hsub⟩ := List.forall_mem_cons.mp hsub
    obtain ⟨q, byId, free, hwill, heq⟩ := fire_place hp
    have ho := only_fire c r
    have hlist : (r.fire c).delayList = r.delayList.erase c := by rw [heq]; rfl
    have hend := ih (r := r.fire c) (hlist ▸ hnodup.erase c) hrest fun d hd => by
      rw [ho.parties d fun e => hc (e ▸ hd)]
      exact hsub d hd
    rw [List.foldl_cons]
    refine ⟨hend.delayList.trans ?_, fun d hd => ?_, fun d hd => ?_⟩
    · rw [hlist, hnodup.erase_eq_filter, List.filter_filter]
      refine List.filter_congr fun d _ => ?_
      by_cases hd : d = c
      · simp [hd]
      · simp [hd]
    · rcases List.mem_cons.mp hd with rfl | hd
      · refine ⟨q, (hend.others d hc).trans ?_, hwill⟩
        rw [heq]
        exact place_self
      · exact hend.fired d hd
    · obtain ⟨hd, hd'⟩ := not_or.mp (mt List.mem_cons.mpr hd)
      exact (hend.others d hd').trans (ho.parties d hd)

theorem Queue.dueFirst (h : Queue r) : Agenda.DueFirst r.fires r.delayList := by
  have htime : ∀ c ∈ r.delayList, r.fires c = decide (r.willTime c < r.now) := by
    intro c hc
    obtain ⟨p, hp⟩ := h.waiting c hc
    rw [fires, willTime, hp]
    rfl
  refine (Agenda.dueFirst_of_sorted h.sorted r.now).imp_of_mem fun {a b} ha hb hdue => ?_
  rw [htime a ha, htime b hb]
  exact hdue

/-- A check goes on until a will is not due. -/
theorem fired_takeWhile (hwaiting : ∀ c ∈ r.delayList, ∃ p, r.parties c = some p)
    (hnodup : r.delayList.Nodup) (hnow : r.lastDelayCheck < r.now) :
    Fired (r.delayList.takeWhile r.fires) r r.delayCheck := by
  have hcheck : r.delayCheck = (r.delayList.takeWhile r.fires).foldl (fun r c => r.fire c)
      { r with lastDelayCheck := r.now } := by
    unfold delayCheck
    rw [if_neg (not_le.mpr hnow), delayLoop_eq hnodup]
    rfl
  have hend := @fired_foldl { r with lastDelayCheck := r.now } (r.delayList.takeWhile r.fires) hnodup
    (hnodup.sublist (List.takeWhile_sublist _)) fun c hc => hwaiting c (List.takeWhile_subset _ hc)
  rw [hcheck]
  exact ⟨hend.delayList, hend.fired, hend.others⟩

theorem fired_delayCheck (h : Queue r) (hnow : r.lastDelayCheck < r.now) :
    Fired (r.delayList.filter r.fires) r r.delayCheck := by
  rw [← h.dueFirst.takeWhile]
  exact fired_takeWhile h.waiting h.nodup hnow

theorem queue_delayCheck (h : Queue r) : Queue r.delayCheck := by
  by_cases hnow : r.lastDelayCheck < r.now
  · have hend := fired_delayCheck h hnow
    have hmem : ∀ d ∈ r.delayCheck.delayList, d ∈ r.delayList ∧
        r.delayCheck.parties d = r.parties d := by
      intro d hd
      rw [hend.delayList, List.mem_filter, decide_eq_true_iff] at hd
      exact ⟨hd.1, hend.others d hd.2⟩
    refine ⟨fun d hd => ?_, ?_, ?_⟩
    · rw [(hmem d hd).2]
      exact h.waiting d (hmem d hd).1
    · rw [hend.delayList]
      exact h.nodup.filter _
    · have hsorted : r.delayCheck.delayList.Pairwise fun c d => r.willTime c ≤ r.willTime d := by
        rw [hend.delayList]
        exact h.sorted.sublist List.filter_sublist
      refine hsorted.imp_of_mem fun {a b} ha hb hle => ?_
      rw [willTime_eq (hmem a ha).2, willTime_eq (hmem b hb).2]
      exact hle
  · have hsame : r.delayCheck = r := if_pos (not_lt.mp hnow)
    rw [hsame]
    exact h

end Registry

/-! ## Runs -/

def State.willTime (b : State) (c : CtxId) : Int := (b.contexts.get c).elim 0 (·.willDelayTime)

/-- `DL_INSERT_INORDER` finds the place that the due time asks for: nothing before it is due
later, and nothing behind it is due earlier. -/
def Placed (b : State) (c : CtxId) : Prop :=
  ∀ ctx, b.contexts.get c = some ctx → c ∉ b.delayList →
    let due := b.db.nowRealS + ctx.willDelayInterval
    let less := fun d => (b.contexts.get d).any fun d =>
      willDelayCmp d.willDelayInterval ctx.willDelayInterval < 0
    (∀ d ∈ b.delayList.takeWhile less, b.willTime d ≤ due) ∧
      ∀ d ∈ b.delayList.dropWhile less, due ≤ b.willTime d

/-- What the rest of the broker does between two calls: clients come, go and change, but those
in the list keep the time at which they are due. -/
structure Meanwhile (b b' : State) : Prop where
  delayList : b'.delayList = b.delayList
  lastDelayCheck : b'.lastDelayCheck = b.lastDelayCheck
  nowRealS : b.db.nowRealS ≤ b'.db.nowRealS
  willDelayTime : ∀ c ∈ b.delayList,
    (b'.contexts.get c).map (·.willDelayTime) = (b.contexts.get c).map (·.willDelayTime)

/-- Sequences of `will_delay__add`, `will_delay__remove` and `will_delay__check`, in which a
will is added only when `ok` holds. -/
inductive WillRun (env : Env) (ok : State → CtxId → Prop) : State → Prop where
  | start {b : State} (hnone : b.delayList = []) : WillRun env ok b
  | add {b : State} (c : CtxId) (h : WillRun env ok b) (hok : ok b c) :
    WillRun env ok (willDelayAdd c b)
  | remove {b : State} (c : CtxId) (h : WillRun env ok b) : WillRun env ok (willDelayRemove c b)
  | check {b : State} (h : WillRun env ok b) : WillRun env ok (willDelayCheck env b)
  | meanwhile {b b' : State} (h : WillRun env ok b) (hm : Meanwhile b b') : WillRun env ok b'

section WillRun

variable {env : Env} {b b' : State} {c : CtxId}

theorem willTime_registry (b : State) (c : CtxId) : b.willTime c = b.registry.willTime c := by
  unfold State.willTime Registry.willTime
  show _ = ((b.contexts.get c).map party).elim 0 _
  cases b.contexts.get c <;> rfl

theorem queue_willDelayAdd (h : b.registry.Queue) (hok : Placed b c) :
    (willDelayAdd c b).registry.Queue := by
  rw [registry_willDelayAdd]
  refine Registry.queue_delayAdd h fun p hp hc => ?_
  obtain ⟨ctx, hget, rfl⟩ := Option.map_eq_some_iff.mp hp
  have hplaced := hok ctx hget hc
  simp only [willTime_registry] at hplaced
  simp only [any_parties]
  exact hplaced

theorem queue_meanwhile (h : b.registry.Queue) (hm : Meanwhile b b') : b'.registry.Queue := by
  have hlist : b'.registry.delayList = b.registry.delayList := hm.delayList
  have htime : ∀ c ∈ b.registry.delayList, b'.registry.willTime c = b.registry.willTime c := by
    intro c hc
    have := hm.willDelayTime c hc
    rw [← willTime_registry, ← willTime_registry, State.willTime, State.willTime]
    cases hget : b.contexts.get c <;> cases hget' : b'.contexts.get c <;> simp_all
  refine ⟨fun c hc => ?_, hlist ▸ h.nodup, ?_⟩
  · rw [hlist] at hc
    obtain ⟨p, hp⟩ := h.waiting c hc
    obtain ⟨ctx, hget, -⟩ := Option.map_eq_some_iff.mp hp
    have hsome := hm.willDelayTime c hc
    rw [hget] at hsome
    obtain ⟨ctx', hget', -⟩ := Option.map_eq_some_iff.mp hsome
    exact ⟨party ctx', parties_some hget'⟩
  · rw [hlist]
    refine h.sorted.imp_of_mem fun {a b} ha hb hle => ?_
    rw [htime a ha, htime b hb]
    exact hle

theorem queue_run (h : WillRun env Placed b) : b.registry.Queue := by
  induction h with
  | @start b hnone =>
    have hlist : b.registry.delayList = [] := hnone
    exact ⟨by rw [hlist]; nofun, by rw [hlist]; exact .nil, by rw [hlist]; exact .nil⟩
  | add c _ hok ih => exact queue_willDelayAdd ih hok
  | remove c _ ih => exact Registry.queue_delayRemove ih c
  | check _ ih =>
    rw [registry_willDelayCheck]
    exact Registry.queue_delayCheck ih
  | meanwhile _ hm ih => exact queue_meanwhile ih hm

theorem delayLoop_due {l : List CtxId} (hl : l.Nodup) (b : State) :
    delayLoop env l b =
      (l.takeWhile fun c => (b.contexts.get c).any (·.willDelayTime < b.db.nowRealS)).foldl
        (fun b c => fireWill env c b) b := by
  have hpass : ∀ (l : List CtxId) (b : State), delayLoop env l b = Agenda.pass
      (fun b c => (b.contexts.get c).any (·.willDelayTime < b.db.nowRealS)) (fireWill env) l b := by
    intro l
    induction l with
    | nil => exact fun b => rfl
    | cons c l ih =>
      intro b
      unfold delayLoop Agenda.pass
      simp only [ih]
      rfl
  rw [hpass]
  refine Agenda.pass_eq (fun c d b hd => ?_) hl b
  have ho := Registry.only_fire c b.registry
  rw [← @registry_fireWill env] at ho
  have hsame : (fireWill env c b).registry.fires d = b.registry.fires d := by
    unfold Registry.fires
    rw [ho.parties d hd, ho.now]
  have hfires : ∀ b : State, b.registry.fires d =
      (b.contexts.get d).any (·.willDelayTime < b.db.nowRealS) := fun b =>
    any_parties d b fun p => p.willDelayTime < b.db.nowRealS
  rw [← hfires, ← hfires]
  exact hsame

/-- **Delayed wills fire when due**: in every run in which each will is placed where its due
time belongs, a check runs its round for exactly the wills that are due. -/
theorem delayed_wills_fire (h : WillRun env Placed b) (hnow : b.lastDelayCheck < b.db.nowRealS) :
    let due := b.delayList.filter (fun c => b.willTime c < b.db.nowRealS)
    let b' := willDelayCheck env b
    b' = due.foldl (fun b c => fireWill env c b) { b with lastDelayCheck := b.db.nowRealS } ∧
    b'.delayList = b.delayList.filter (fun c => ¬ b.willTime c < b.db.nowRealS) ∧
    (∀ c ∈ due, ∃ ctx, b'.contexts.get c = some ctx ∧ ctx.will = none) ∧
    ∀ c, c ∉ due → (b'.contexts.get c).map party = (b.contexts.get c).map party := by
  intro due b'
  have hq := queue_run h
  have hfires : ∀ c ∈ b.delayList, b.registry.fires c = decide (b.willTime c < b.db.nowRealS) := by
    intro c hc
    obtain ⟨p, hp⟩ := hq.waiting c hc
    rw [willTime_registry, Registry.fires, Registry.willTime, hp]
    rfl
  have hdue : b.registry.delayList.filter b.registry.fires = due := List.filter_congr hfires
  have hend := Registry.fired_delayCheck hq hnow
  rw [hdue, ← @registry_willDelayCheck env] at hend
  refine ⟨?_, ?_, fun c hc => ?_, hend.others⟩
  · have htake : b.delayList.takeWhile (fun c =>
        (b.contexts.get c).any (·.willDelayTime < b.db.nowRealS)) = due := by
      rw [← hdue]
      refine Eq.trans ?_ hq.dueFirst.takeWhile
      exact congrArg (List.takeWhile · b.delayList)
        (funext fun c => (any_parties c b fun p => p.willDelayTime < b.db.nowRealS).symm)
    have hnodup : b.delayList.Nodup := hq.nodup
    show willDelayCheck env b = _
    unfold willDelayCheck
    rw [if_neg (not_le.mpr hnow), delayLoop_due hnodup]
    exact congrArg (List.foldl (fun b c => fireWill env c b) _) htake
  · refine hend.delayList.trans (List.filter_congr fun c hc => decide_eq_decide.mpr (not_congr ?_))
    rw [List.mem_filter, decide_eq_true_iff]
    exact and_iff_right hc
  · obtain ⟨q, hparty, hwill⟩ := hend.fired c hc
    obtain ⟨ctx, hget, rfl⟩ := Option.map_eq_some_iff.mp hparty
    exact ⟨ctx, hget, hwill⟩

/-! ### Two wills -/

/-- A client without a connection whose will waits for so many seconds. -/
def willing (interval : Nat) : Context :=
  { Context.init Config.init none with
    id := some (ascii "a"), willDelayInterval := interval
    will := some { topic := ascii "w", topic_ne_nil := by decide, payload := [1], qos := .q0
                   retain := false, expiryInterval := 0, properties := [] } }

def willingTwo (first second : Nat) : State :=
  let b := State.dbOpen Config.init fun _ => ⟨0, 0, 0⟩
  { b with contexts := (b.contexts.set 0 (willing first)).set 1 (willing second) }

def State.at (b : State) (now : Int) : State := { b with db := { b.db with nowRealS := now } }

/-- The first will is added at once, the second one later. -/
def waitingTwo (first second : Nat) (later : Int) : State :=
  willDelayAdd 1 ((willDelayAdd 0 (willingTwo first second)).at later)

theorem meanwhile_at {now : Int} (h : b.db.nowRealS ≤ now) : Meanwhile b (b.at now) :=
  ⟨rfl, rfl, h, fun _ _ => rfl⟩

/-- Wills of 5 and 10 seconds at 0 and at 1, of which one is due at 8. -/
theorem delayed_wills_two :
    let b := (waitingTwo 5 10 1).at 8
    b.delayList = [0, 1] ∧ (willDelayCheck .granting b).delayList = [1] ∧
      ∃ ctx, (willDelayCheck .granting b).contexts.get 0 = some ctx ∧ ctx.will = none := by
  intro b
  have hfirst : Placed (willingTwo 5 10) 0 := fun ctx _ _ => ⟨nofun, nofun⟩
  have hsecond : Placed ((willDelayAdd 0 (willingTwo 5 10)).at 1) 1 := by
    intro ctx hget _
    have hctx : ctx = willing 10 := (Option.some.inj hget).symm
    subst hctx
    decide
  have hrun : WillRun .granting Placed b :=
    ((((WillRun.start rfl).add 0 hfirst).meanwhile (meanwhile_at (by decide))).add 1 hsecond).meanwhile
      (meanwhile_at (by decide))
  obtain ⟨-, hlist, hfired, -⟩ := delayed_wills_fire hrun (by decide)
  exact ⟨by decide, hlist.trans (by decide), hfired 0 (by decide)⟩

/-- **A will that is due waits behind one that is not**: with 10 and 5 seconds at 0 and at 8 the
second will stands first, and a check at 12 passes over the first, due since 10. -/
theorem delayed_will_overlooked :
    let b := (waitingTwo 10 5 8).at 12
    WillRun .granting (fun _ _ => True) b ∧ b.lastDelayCheck < b.db.nowRealS ∧
      0 ∈ b.delayList ∧ b.willTime 0 = 10 ∧
      0 ∈ (willDelayCheck .granting b).delayList ∧
      ((willDelayCheck .granting b).contexts.get 0).any (·.will.isSome) = true := by
  intro b
  refine ⟨?_, by decide⟩
  exact ((((WillRun.start rfl).add 0 trivial).meanwhile (meanwhile_at (by decide))).add 1
    trivial).meanwhile (meanwhile_at (by decide))

end WillRun

end AdaptiveMqtt.Broker
