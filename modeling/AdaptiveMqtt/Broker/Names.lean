import AdaptiveMqtt.Broker.Tidy

/-!
# Who has which id

`contexts_by_id` finds a client by its id, and a client that it does not find has none. While a
CONNECT is read the client that sent it is not yet in the table: `Named` leaves it out.
-/

namespace AdaptiveMqtt.Broker

open Lib Db

namespace Registry

variable {r r' : Registry} {out : Option CtxId} {c d found : CtxId} {p q old : Party} {k : Bytes}

/-- The table and the clients agree, apart from the client `out`. -/
structure Named (out : Option CtxId) (r : Registry) : Prop where
  mem : ∀ {c p k}, some c ≠ out → r.parties c = some p → p.id = some k →
    r.contextsById k = some c ∧ p.removedFromById = false
  of_mem : ∀ {c k}, r.contextsById k = some c → some c ≠ out ∧ ∃ p, r.parties c = some p ∧ p.id = some k

/-- Two clients do not have the same id. -/
theorem Named.unique (h : Named out r) (hc : some c ≠ out) (hd : some d ≠ out)
    (hp : r.parties c = some p) (hq : r.parties d = some q) (hk : p.id = some k)
    (hk' : q.id = some k) : c = d :=
  Option.some.inj ((h.mem hc hp hk).1.symm.trans (h.mem hd hq hk').1)

/-- A client keeps its id. -/
theorem Named.same (h : Named out r) (ho : Only c r r') (hp : r.parties c = some p)
    (hq : r'.parties c = some q) (hids : r'.contextsById = r.contextsById) (hid : q.id = p.id)
    (hremoved : q.removedFromById = p.removedFromById) : Named out r' := by
  refine ⟨fun {d x k} hd hx hk => ?_, fun {d k} hd => ?_⟩
  · rw [hids]
    by_cases hdc : d = c
    · subst hdc
      cases hq.symm.trans hx
      rw [hremoved]
      exact h.mem hd hp (hid.symm.trans hk)
    · exact h.mem hd ((ho.parties d hdc).symm.trans hx) hk
  · rw [hids] at hd
    obtain ⟨hout, x, hx, hk⟩ := h.of_mem hd
    by_cases hdc : d = c
    · subst hdc
      cases hp.symm.trans hx
      exact ⟨hout, q, hq, hid.trans hk⟩
    · exact ⟨hout, x, (ho.parties d hdc).trans hx, hk⟩

theorem forget_some (h : forget p r.contextsById k = some d) : r.contextsById k = some d := by
  unfold forget at h
  split at h
  · exact h
  · cases hid : p.id with
    | none =>
      rw [hid] at h
      exact h
    | some k' =>
      rw [hid, Option.elim_some, Function.update_apply] at h
      split at h
      · cases h
      · exact h

/-- A client loses its id. -/
theorem Named.forget (h : Named out r) (hc : some c ≠ out) (ho : Only c r r')
    (hp : r.parties c = some p) (hq : r'.parties c = some q)
    (hids : r'.contextsById = forget p r.contextsById) (hid : q.id = none) : Named out r' := by
  have hgone : ∀ k, p.id = some k → r'.contextsById k = none := by
    intro k hk
    rw [hids, Registry.forget, (h.mem hc hp hk).2, hk]
    exact Function.update_self ..
  refine ⟨fun {d x k} hd hx hk => ?_, fun {d k} hd => ?_⟩
  · by_cases hdc : d = c
    · subst hdc
      cases hq.symm.trans hx
      cases hid.symm.trans hk
    · have hx := (ho.parties d hdc).symm.trans hx
      obtain ⟨hmem, hremoved⟩ := h.mem hd hx hk
      refine ⟨?_, hremoved⟩
      rw [hids, Registry.forget]
      split
      · exact hmem
      · cases hpid : p.id with
        | none => exact hmem
        | some k' =>
          have hne : k ≠ k' := by
            rintro rfl
            exact hdc (h.unique hd hc hx hp hk hpid)
          rw [Option.elim_some, Function.update_of_ne hne]
          exact hmem
  · obtain ⟨hout, x, hx, hk⟩ := h.of_mem (forget_some (hids ▸ hd))
    by_cases hdc : d = c
    · subst hdc
      cases hp.symm.trans hx
      cases (hgone k hk).symm.trans hd
    · exact ⟨hout, x, (ho.parties d hdc).trans hx, hk⟩

/-! ## Operations -/

theorem named_modify {f : Party → Party} (h : Named out r) (hp : r.parties c = some p)
    (hid : (f p).id = p.id) (hremoved : (f p).removedFromById = p.removedFromById) :
    Named out (r.modify c f) := by
  have hself : (r.modify c f).parties c = some (f p) := by rw [modify_self, hp, Option.map_some]
  exact h.same (only_modify c f r) hp hself rfl hid hremoved

theorem named_disconnect (h : Named out r) (ht : Tidy r) (hc : some c ≠ out) :
    Named out (r.disconnect c) := by
  have hsame : ∀ r', r' = r → Named out r' := by
    rintro r' rfl
    exact h
  cases hp : r.parties c with
  | none =>
    refine hsame _ ?_
    unfold disconnect
    rw [hp]
  | some p =>
    have hs := ht.suits hp
    by_cases hgone : p.state = .disconnected
    · refine hsame _ ?_
      unfold disconnect
      rw [hp]
      exact if_pos hgone
    by_cases hdis : p.state = .disused
    · obtain ⟨hsock, hzero, hwill, -⟩ := hs.disused hdis
      exact hsame _ (disconnect_disused hp hdis hsock hzero hwill)
    obtain ⟨hexpiry, hdelay⟩ := ht.notMem hp hgone
    obtain ⟨-, -, hid, hremoved, -⟩ := gone_fields r.now p
    have ho := only_disconnect c r
    have hdep := departs_disconnect hp hgone hdis hexpiry hdelay hs.undelayed hs.plain
    generalize r.disconnect c = r' at ho hdep
    cases hdep with
    | discard => exact h.forget hc ho hp place_self rfl rfl
    | stay => exact h.same ho hp place_self rfl hid hremoved
    | expire => exact h.same ho hp place_self rfl hid hremoved

theorem named_expire (h : Named out r) (ht : Tidy r) (hmem : c ∈ r.expiryList)
    (hc : some c ≠ out) : Named out (r.expire c) := by
  obtain ⟨p, hp⟩ := ht.expiring c hmem
  have heq := expire_eq hp fun e => nomatch ((ht.suits hp).expiring hmem).1.symm.trans e
  have ho := only_expire c r
  rw [heq] at ho ⊢
  exact h.forget hc ho hp place_self rfl rfl

theorem willClear_ids (p : Party) :
    p.willClear.id = p.id ∧ p.willClear.removedFromById = p.removedFromById := by
  unfold Party.willClear
  split <;> exact ⟨rfl, rfl⟩

theorem named_fire (h : Named out r) (ht : Tidy r) (hmem : c ∈ r.delayList)
    (hc : some c ≠ out) : Named out (r.fire c) := by
  obtain ⟨p, hp⟩ := ht.delaying c hmem
  have heq := fire_eq hp fun e => nomatch ((ht.suits hp).delaying hmem).1.symm.trans e
  have ho := only_fire c r
  have hids := willClear_ids { p with willDelayInterval := 0 }
  simp only at heq
  rw [heq] at ho ⊢
  by_cases hzero : p.sessionExpiryInterval = 0
  · rw [if_pos hzero] at ho ⊢
    exact h.forget hc ho hp place_self rfl rfl
  · rw [if_neg hzero] at ho ⊢
    exact h.same ho hp place_self rfl hids.1 hids.2

theorem named_freeDisused (h : Named none r) (ht : Tidy r) : Named none r.freeDisused := by
  rw [freeDisused_eq ht]
  refine ⟨fun {c p k} hc hp hk => ?_, fun {c k} hk => ?_⟩
  · simp only at hp
    split at hp
    · cases hp
    · exact h.mem hc hp hk
  · obtain ⟨hout, p, hp, hid⟩ := h.of_mem hk
    have hnot : c ∉ r.llForFree := fun hm => by
      have hnone := ((ht.suits hp).disused ((ht.suits hp).doomed hm)).2.2.2
      exact nomatch hnone.symm.trans hid
    exact ⟨hout, p, (if_neg hnot).trans hp, hid⟩

theorem ids_disconnect (ht : Tidy r) (hk : (r.disconnect c).contextsById k = some d) :
    r.contextsById k = some d := by
  cases hp : r.parties c with
  | none =>
    unfold disconnect at hk
    rw [hp] at hk
    exact hk
  | some p =>
    have hs := ht.suits hp
    by_cases hgone : p.state = .disconnected
    · unfold disconnect at hk
      rw [hp] at hk
      simp only at hk
      rw [if_pos hgone] at hk
      exact hk
    by_cases hdis : p.state = .disused
    · obtain ⟨hsock, hzero, hwill, -⟩ := hs.disused hdis
      rw [disconnect_disused hp hdis hsock hzero hwill] at hk
      exact hk
    obtain ⟨hexpiry, hdelay⟩ := ht.notMem hp hgone
    have hdep := departs_disconnect hp hgone hdis hexpiry hdelay hs.undelayed hs.plain
    generalize r.disconnect c = r' at hk hdep
    cases hdep with
    | discard => exact forget_some hk
    | stay => exact hk
    | expire => exact hk

theorem named_takeOver (h : Named out r) (ht : Tidy r) (hfound : r.contextsById k = some found)
    (hc : r.parties c = some p) :
    Named out (r.takeOver found c) ∧ (r.takeOver found c).contextsById k = none := by
  obtain ⟨hout, old, hold, -⟩ := h.of_mem hfound
  obtain ⟨time, htake⟩ := takeOver_eq hold hc
  obtain ⟨htidy, ho, -, -⟩ := tidy_takenOver ht hold time
  obtain ⟨-, -, -, hid, -, hremoved⟩ := takenOver_fields { old with willDelayTime := time }
  have hnamed := h.same ho hold place_self rfl hid hremoved
  have hnamed' := named_disconnect hnamed htidy hout
  obtain ⟨htidy', -, q, hq, hdis⟩ := tidy_takeOver ht hold hc
  rw [← htake] at hnamed'
  refine ⟨hnamed', ?_⟩
  cases hget : (r.takeOver found c).contextsById k with
  | none => rfl
  | some d =>
    -- the table only shrinks, and the one client it could find has no id any more
    have hd := ids_disconnect htidy (htake ▸ hget)
    have hd : r.contextsById k = some d := hd
    obtain rfl := Option.some.inj (hfound.symm.trans hd)
    obtain ⟨-, x, hx, hxk⟩ := hnamed'.of_mem hget
    cases hq.symm.trans hx
    exact nomatch ((htidy'.suits hq).disused hdis).2.2.2.symm.trans hxk

/-- A client enters the table under an id that nobody has. -/
theorem named_enter (h : Named (some c) r) (hp : r.parties c = some p) (hid : p.id = some k)
    (hremoved : p.removedFromById = false) (hfree : r.contextsById k = none) :
    Named none { r with contextsById := Function.update r.contextsById k (some c) } := by
  refine ⟨fun {d x k'} _ hx hk' => ?_, fun {d k'} hd => ⟨nofun, ?_⟩⟩
  · show Function.update r.contextsById k (some c) k' = some d ∧ _
    by_cases hdc : d = c
    · subst hdc
      cases hp.symm.trans hx
      cases hid.symm.trans hk'
      exact ⟨Function.update_self .., hremoved⟩
    · have hmem := h.mem (fun e => hdc (Option.some.inj e)) hx hk'
      have hne : k' ≠ k := by
        rintro rfl
        exact nomatch hfree.symm.trans hmem.1
      rw [Function.update_of_ne hne]
      exact hmem
  · have hd : Function.update r.contextsById k (some c) k' = some d := hd
    rw [Function.update_apply] at hd
    split at hd
    · rename_i hk
      cases hd
      exact ⟨p, hp, hk ▸ hid⟩
    · exact (h.of_mem hd).2

/-- A client that has sent no CONNECT is not in the table. -/
theorem Named.fresh (h : Named none r) (hp : r.parties c = some p) (hid : p.id = none) :
    Named (some c) r := by
  refine ⟨fun {d x k} hd hx hk => h.mem nofun hx hk, fun {d k} hd => ?_⟩
  obtain ⟨-, x, hx, hk⟩ := h.of_mem hd
  refine ⟨fun e => ?_, x, hx, hk⟩
  cases Option.some.inj e
  cases hp.symm.trans hx
  exact nomatch hid.symm.trans hk

/-- The client that is out may change as it likes. -/
theorem Named.modify_out (h : Named (some c) r) (f : Party → Party) :
    Named (some c) (r.modify c f) := by
  have ho := only_modify c f r
  refine ⟨fun {d x k} hd hx hk => ?_, fun {d k} hd => ?_⟩
  · have hne : d ≠ c := fun e => hd (congrArg some e)
    exact h.mem hd ((ho.parties d hne).symm.trans hx) hk
  · obtain ⟨hout, x, hx, hk⟩ := h.of_mem hd
    have hne : d ≠ c := fun e => hout (congrArg some e)
    exact ⟨hout, x, (ho.parties d hne).trans hx, hk⟩

theorem named_connect (h : Named none r) (ht : Tidy r) (hf : Fresh r) (hp : r.parties c = some p)
    (hopen : p.sock ≠ none) (o : Outcome) (packet : ConnectPacket) :
    Named none (r.connect o c packet) := by
  unfold connect
  rw [hp, Option.any_some]
  by_cases hnew : p.state = .new
  · obtain ⟨hid, hwill, hremoved⟩ := hf hp hnew
    have hgone : p.state ≠ .disconnected := fun e => nomatch hnew.symm.trans e
    have hread := before_connectPacket ht hp hopen packet o.interval hwill
    have hp₀ : (r.modify c (·.connect packet o.interval)).parties c =
        some (p.connect packet o.interval) := by rw [modify_self, hp, Option.map_some]
    have hnamed := (h.fresh hp hid).modify_out (·.connect packet o.interval)
    rw [if_pos (decide_eq_true hnew)]
    simp only
    generalize r.modify c (·.connect packet o.interval) = r₀ at hread hp₀ hnamed
    have hover : Named (some c) ((r₀.contextsById packet.clientId).elim r₀ (r₀.takeOver · c)) ∧
        ((r₀.contextsById packet.clientId).elim r₀ (r₀.takeOver · c)).contextsById
          packet.clientId = none ∧
        ((r₀.contextsById packet.clientId).elim r₀ (r₀.takeOver · c)).parties c =
          some (p.connect packet o.interval) := by
      cases hfound : r₀.contextsById packet.clientId with
      | none => exact ⟨hnamed, hfound, hp₀⟩
      | some found =>
        obtain ⟨hout, old, hold, -⟩ := hnamed.of_mem hfound
        obtain ⟨hnamed', hfree⟩ := named_takeOver hnamed hread.tidy hfound hp₀
        have ho := (tidy_takeOver hread.tidy hold hp₀).2.1
        exact ⟨hnamed', hfree, (ho.parties c fun e => hout (congrArg some e.symm)).trans hp₀⟩
    obtain ⟨hnamed, hfree, hp₁⟩ := hover
    have henter := named_enter hnamed hp₁ rfl hremoved hfree
    split
    · have hset : ∀ q : Party, (q.setState .active).id = q.id ∧
          (q.setState .active).removedFromById = q.removedFromById := by
        intro q
        unfold Party.setState
        split <;> exact ⟨rfl, rfl⟩
      exact named_modify henter hp₁ (hset _).1 (hset _).2
    · exact henter
  · rw [if_neg (by simpa using hnew)]
    refine named_modify h hp ?_ rfl
    exact if_neg hnew

/-! ## Events -/

/-- The states a client has between two events. -/
def Rests (state : ClientState) : Prop :=
  state = .new ∨ state = .active ∨ state = .disconnected ∨ state = .disused

/-- What holds between two events. -/
structure Sound (r : Registry) : Prop where
  tidy : Tidy r
  fresh : Fresh r
  named : Named none r
  rests : ∀ {c p}, r.parties c = some p → Rests p.state

theorem rests_only (h : ∀ {c p}, r.parties c = some p → Rests p.state) (ho : Only c r r')
    (hq : ∀ {q}, r'.parties c = some q → Rests q.state) :
    ∀ {d p}, r'.parties d = some p → Rests p.state := by
  intro d p hp
  by_cases hd : d = c
  · exact hq (hd ▸ hp)
  · exact h ((ho.parties d hd).symm.trans hp)

theorem rests_disconnect (h : ∀ {d p}, d ≠ c → r.parties d = some p → Rests p.state) :
    ∀ {d p}, (r.disconnect c).parties d = some p → Rests p.state := by
  intro d p hp
  by_cases hd : d = c
  · subst hd
    exact .inr (.inr (disconnect_state hp))
  · exact h hd (((only_disconnect c r).parties d hd).symm.trans hp)

theorem rests_connect (h : Sound r) (hp : r.parties c = some p) (hopen : p.sock ≠ none)
    (o : Outcome) (packet : ConnectPacket) :
    ∀ {d q}, (r.connect o c packet).parties d = some q → Rests q.state := by
  unfold connect
  rw [hp, Option.any_some]
  by_cases hnew : p.state = .new
  · have hgone : p.state ≠ .disconnected := fun e => nomatch hnew.symm.trans e
    have hread := before_connectPacket h.tidy hp hopen packet o.interval (h.fresh hp hnew).2.1
    have hp₀ : (r.modify c (·.connect packet o.interval)).parties c =
        some (p.connect packet o.interval) := by rw [modify_self, hp, Option.map_some]
    have hrests : ∀ {d q}, (r.modify c (·.connect packet o.interval)).parties d = some q →
        Rests q.state := by
      refine rests_only h.rests (only_modify c _ r) fun hq => ?_
      cases hp₀.symm.trans hq
      exact .inl hnew
    rw [if_pos (decide_eq_true hnew)]
    simp only
    generalize r.modify c (·.connect packet o.interval) = r₀ at hread hp₀ hrests
    have hover : ∀ {d q}, ((r₀.contextsById packet.clientId).elim r₀ (r₀.takeOver · c)).parties d =
        some q → Rests q.state := by
      cases hfound : r₀.contextsById packet.clientId with
      | none => exact hrests
      | some found =>
        intro d q (hq : (r₀.takeOver found c).parties d = some q)
        cases hold : r₀.parties found with
        | none =>
          have hsame : r₀.takeOver found c = r₀ := by
            unfold takeOver
            rw [hold]
          rw [hsame] at hq
          exact hrests hq
        | some old =>
          obtain ⟨-, ho, x, hx, hdis⟩ := tidy_takeOver hread.tidy hold hp₀
          refine rests_only hrests ho (fun hq => ?_) hq
          cases hx.symm.trans hq
          exact .inr (.inr (.inr hdis))
    generalize (r₀.contextsById packet.clientId).elim r₀ (r₀.takeOver · c) = r₁ at hover
    split
    · intro hq
      have ho := only_modify c (·.setState .active)
        { r₁ with contextsById := Function.update r₁.contextsById packet.clientId (some c) }
      refine rests_only (r := { r₁ with
        contextsById := Function.update r₁.contextsById packet.clientId (some c) }) hover ho
        (fun {q} hq => ?_) hq
      rw [modify_self] at hq
      obtain ⟨x, hx, rfl⟩ := Option.map_eq_some_iff.mp hq
      unfold Party.setState
      split
      · exact .inr (.inl rfl)
      · exact hover hx
    · exact hover
  · rw [if_neg (by simpa using hnew)]
    refine rests_only h.rests (only_modify c _ r) fun {q} hq => ?_
    rw [modify_self, hp] at hq
    cases hq
    show Rests p.state
    exact h.rests hp

theorem disconnecting_ids (packet : Option (Bool × Option Nat)) (p : Party) :
    (p.disconnecting packet).id = p.id ∧
      (p.disconnecting packet).removedFromById = p.removedFromById := by
  have hset : ∀ (state : ClientState) (q : Party), (q.setState state).id = q.id ∧
      (q.setState state).removedFromById = q.removedFromById := by
    intro state q
    unfold Party.setState
    split <;> exact ⟨rfl, rfl⟩
  rcases disconnecting_cases packet p with h | ⟨interval, h | h⟩
  · rw [h]
    exact ⟨rfl, rfl⟩
  · rw [h]
    exact hset _ _
  · rw [h]
    obtain ⟨hid, hremoved⟩ := hset .disconnecting
      { p with sessionExpiryInterval := interval }.willClear
    obtain ⟨hid', hremoved'⟩ := willClear_ids { p with sessionExpiryInterval := interval }
    exact ⟨hid.trans hid', hremoved.trans hremoved'⟩

theorem sound_disconnect {f : Party → Party} (h : Sound r) (hnext : Next r ((r.modify c f).disconnect c))
    (ht : Tidy (r.modify c f)) (hp : r.parties c = some p) (hid : (f p).id = p.id)
    (hremoved : (f p).removedFromById = p.removedFromById) :
    Sound ((r.modify c f).disconnect c) := by
  refine ⟨hnext.tidy, hnext.fresh, named_disconnect (named_modify h.named hp hid hremoved) ht nofun,
    rests_disconnect fun {d q} hd hq => ?_⟩
  exact h.rests (((only_modify c f r).parties d hd).symm.trans hq)

theorem sound_afterError (h : Sound r) (hnext : Next r (r.afterError fail c)) :
    Sound (r.afterError fail c) := by
  refine ⟨hnext.tidy, hnext.fresh, ?_, ?_⟩
  · unfold afterError
    split
    · exact named_disconnect h.named h.tidy nofun
    · exact h.named
  · unfold afterError
    split
    · exact rests_disconnect fun _ => h.rests
    · exact h.rests

theorem sound_delayCheck (h : Sound r) : Sound r.delayCheck := by
  have hnext := next_delayCheck h.tidy h.fresh
  have hfold : ∀ (l : List CtxId) (r : Registry), Sound r → l.Nodup → (∀ c ∈ l, c ∈ r.delayList) →
      Sound (l.foldl (fun r c => r.fire c) r) := by
    intro l
    induction l with
    | nil => exact fun r h _ _ => h
    | cons c l ih =>
      intro r h hl hsub
      obtain ⟨hc, hrest⟩ := List.nodup_cons.mp hl
      obtain ⟨hmem, hsub⟩ := List.forall_mem_cons.mp hsub
      have ho := only_fire c r
      obtain ⟨p, hp⟩ := h.tidy.delaying c hmem
      have hstate := ((h.tidy.suits hp).delaying hmem).1
      have heq := fire_eq hp fun e => nomatch hstate.symm.trans e
      refine ih (r.fire c) ⟨tidy_fire h.tidy hmem, fresh_fire h.tidy h.fresh hmem,
        named_fire h.named h.tidy hmem nofun, rests_only h.rests ho fun {q} hq => ?_⟩ hrest
        fun d hd => (ho.mem_delayList fun e => hc (e ▸ hd)).mpr (hsub d hd)
      simp only at heq
      rw [heq] at hq
      split at hq
      · cases place_self.symm.trans hq
        exact .inr (.inr (.inr rfl))
      · cases place_self.symm.trans hq
        have hsame := (willClear_fields { p with willDelayInterval := 0 }).1
        exact .inr (.inr (.inl (hsame.trans hstate)))
  unfold delayCheck
  split
  · exact h
  · have hlast : Sound { r with lastDelayCheck := r.now } :=
      ⟨h.tidy.of_eq rfl rfl rfl rfl rfl rfl, h.fresh, ⟨h.named.mem, h.named.of_mem⟩, h.rests⟩
    rw [delayLoop_eq h.tidy.delayNodup]
    exact hfold _ _ hlast (h.tidy.delayNodup.sublist (List.takeWhile_sublist _)) fun c hc =>
      List.takeWhile_subset _ hc

theorem sound_expiryCheck (h : Sound r) : Sound r.expiryCheck := by
  have hnext := next_expiryCheck h.tidy h.fresh
  have hfold : ∀ (l : List CtxId) (r : Registry), Tidy r → Named none r → l.Nodup →
      (∀ c ∈ l, c ∈ r.expiryList) → Named none (l.foldl (fun r c => r.expire c) r) := by
    intro l
    induction l with
    | nil => exact fun r _ h _ _ => h
    | cons c l ih =>
      intro r ht h hl hsub
      obtain ⟨hc, hrest⟩ := List.nodup_cons.mp hl
      obtain ⟨hmem, hsub⟩ := List.forall_mem_cons.mp hsub
      have ho := only_expire c r
      exact ih (r.expire c) (tidy_expire ht hmem) (named_expire h ht hmem nofun) hrest
        fun d hd => (ho.mem_expiryList fun e => hc (e ▸ hd)).mpr (hsub d hd)
  refine ⟨hnext.tidy, hnext.fresh, ?_, fun {c p} hp => ?_⟩
  · unfold expiryCheck
    split
    · exact h.named
    · rw [expiryLoop_eq h.tidy.expiryNodup]
      exact hfold _ _ (h.tidy.of_eq rfl rfl rfl rfl rfl rfl) ⟨h.named.mem, h.named.of_mem⟩
        (h.tidy.expiryNodup.sublist (List.takeWhile_sublist _)) fun c hc => List.takeWhile_subset _ hc
  · by_cases hnow : r.lastExpiryCheck < r.now
    · have hend := (ended_expiryCheck h.tidy hnow).1
      by_cases hc : c ∈ r.expiryList.filter r.expires
      · obtain ⟨x, -, hx⟩ := hend.ended c hc
        cases hx.symm.trans hp
        exact .inr (.inr (.inr rfl))
      · exact h.rests ((hend.others c hc).symm.trans hp)
    · rw [show r.expiryCheck = r from if_pos (not_lt.mp hnow)] at hp
      exact h.rests hp

/-- **Every event keeps the registry sound.** -/
theorem sound_exec (h : Sound r) {o : Outcome} (ho : o.active = true ∨ o.fail = true) {e : Event}
    (hsource : ∀ c, e.source = some c → ∃ p, r.parties c = some p ∧ p.sock ≠ none) :
    Sound (r.exec o e) := by
  have hnext := next_exec h.tidy h.fresh ho hsource
  cases e with
  | accept sock mountPoint =>
    have hfresh : ∀ {c q}, r.parties c = some q → c ≠ r.nextContext := fun hq e =>
      absurd (h.tidy.suits hq).allocated (e ▸ lt_irrefl _)
    have hcases : ∀ {c q}, (r.exec o (.accept sock mountPoint)).parties c = some q →
        q.state = .new ∧ q.id = none ∨ r.parties c = some q := by
      intro c q (hq : Function.update r.parties r.nextContext _ c = some q)
      rw [Function.update_apply] at hq
      split at hq
      · cases hq
        exact .inl ⟨rfl, rfl⟩
      · exact .inr hq
    refine ⟨hnext.tidy, hnext.fresh, ⟨fun {c p k} hc hp hk => ?_, fun {c k} hk => ?_⟩,
      fun {c p} hp => ?_⟩
    · rcases hcases hp with ⟨-, hid⟩ | hp
      · exact nomatch hid.symm.trans hk
      · exact h.named.mem hc hp hk
    · obtain ⟨hout, p, hp, hid⟩ := h.named.of_mem hk
      exact ⟨hout, p, (Function.update_of_ne (hfresh hp) ..).trans hp, hid⟩
    · rcases hcases hp with ⟨hstate, -⟩ | hp
      · exact .inl hstate
      · exact h.rests hp
  | connect c maxQos packet =>
    obtain ⟨p, hp, hopen⟩ := hsource c rfl
    have hnamed := named_connect h.named h.tidy h.fresh hp hopen o packet
    have hbefore := (before_connect h.tidy h.fresh hp hopen o packet).1
    have hrests := @rests_connect r c p h hp hopen o packet
    refine ⟨hnext.tidy, hnext.fresh, ?_, ?_⟩
    · show Named none ((r.connect o c packet).afterError o.fail c)
      unfold afterError
      split
      · exact named_disconnect hnamed hbefore.tidy nofun
      · exact hnamed
    · show ∀ {d q}, ((r.connect o c packet).afterError o.fail c).parties d = some q → Rests q.state
      unfold afterError
      split
      · exact rests_disconnect fun _ => hrests
      · exact hrests
  | refuse c =>
    obtain ⟨p, hp, hopen⟩ := hsource c rfl
    refine sound_disconnect h hnext (before_refused h.tidy hp hopen).tidy hp ?_ rfl
    show (if p.state = .new then none else p.id) = p.id
    split
    · rename_i hnew
      exact (h.fresh hp hnew).1.symm
    · rfl
  | disconnect c packet =>
    obtain ⟨p, hp, hopen⟩ := hsource c rfl
    obtain ⟨hid, hremoved⟩ := disconnecting_ids packet p
    exact sound_disconnect h hnext (before_disconnecting h.tidy hp hopen packet).tidy hp hid hremoved
  | tick nowS nowRealS => exact ⟨hnext.tidy, hnext.fresh, ⟨h.named.mem, h.named.of_mem⟩, h.rests⟩
  | expiryCheck => exact sound_expiryCheck h
  | delayCheck => exact sound_delayCheck h
  | freeDisused =>
    refine ⟨hnext.tidy, hnext.fresh, named_freeDisused h.named h.tidy, fun {c p} hp => ?_⟩
    have hp : r.freeDisused.parties c = some p := hp
    rw [freeDisused_eq h.tidy] at hp
    simp only at hp
    split at hp
    · cases hp
    · exact h.rests hp
  | sysTree topic payload => exact h
  | publish c packet => exact sound_afterError h hnext
  | pubrel c packet => exact sound_afterError h hnext
  | ack c type packet => exact sound_afterError h hnext
  | pubrec c packet => exact sound_afterError h hnext
  | subscribe c packet => exact sound_afterError h hnext
  | unsubscribe c packet => exact sound_afterError h hnext
  | write c => exact sound_afterError h hnext

end Registry

end AdaptiveMqtt.Broker
