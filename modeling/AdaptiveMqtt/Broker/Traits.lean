import AdaptiveMqtt.Broker.Names
import AdaptiveMqtt.Broker.Expiry

/-!
# Traits

A trait is a property of a client that the functions on sessions do not take away: to have no
will and no socket, or to have a session that ends with the connection when it is a clean one
of an old protocol. Only the packets of the client itself can do more.
-/

namespace AdaptiveMqtt.Broker

open Lib Db

/-- Every single write to a client keeps the property. -/
structure Trait (P : Party → Prop) : Prop where
  setState : ∀ {p} (state : ClientState), P p → P (p.setState state)
  socketClose : ∀ {p}, P p → P p.socketClose
  willClear : ∀ {p : Party}, P p → P p.willClear
  expiryTime : ∀ {p : Party} (time : Int), P p → P { p with sessionExpiryTime := time }
  willTime : ∀ {p : Party} (time : Int), P p → P { p with willDelayTime := time }
  removed : ∀ {p : Party}, P p → P { p with removedFromById := true }
  nameless : ∀ {p : Party}, P p → P { p with id := none }
  undelayed : ∀ {p : Party}, P p → P { p with willDelayInterval := 0 }
  ended : ∀ {p : Party}, P p → P { p with sessionExpiryInterval := 0, willDelayInterval := 0 }
  settled : ∀ {p : Party}, P p → P { p with cleanStart := true, sessionExpiryInterval := 0 }

namespace Registry

/-- The client has the property, if it is there. -/
def Has (P : Party → Prop) (c : CtxId) (r : Registry) : Prop := ∀ p, r.parties c = some p → P p

variable {P : Party → Prop} {r r' : Registry} {c d : CtxId} {f : Party → Party}

theorem Has.of_eq (h : Has P c r) (hp : r'.parties c = r.parties c) : Has P c r' := by
  intro p hp'
  exact h p (hp.symm.trans hp')

theorem has_modify (h : Has P c r) (hf : ∀ {p}, P p → P (f p)) (d : CtxId) :
    Has P c (r.modify d f) := by
  intro p hp
  by_cases hc : c = d
  · subst hc
    rw [modify_self] at hp
    obtain ⟨q, hq, rfl⟩ := Option.map_eq_some_iff.mp hp
    exact hf (h q hq)
  · exact h p (((only_modify d f r).parties c hc).symm.trans hp)

theorem has_cleanup (h : Has P c r) (d : CtxId) : Has P c (r.cleanup d) := by
  intro p hp
  unfold cleanup at hp
  simp only [Function.update_apply] at hp
  split at hp
  · cases hp
  · rename_i hc
    refine h p (Eq.trans ?_ hp)
    have hsent := only_sendWill d (r.modify d fun p => { p with cleanStart := true }.socketClose)
    rw [(only_removeFromById d _).parties c hc, hsent.parties c hc, (only_modify d _ r).parties c hc]

theorem has_foldl {op : CtxId → Registry → Registry}
    (hop : ∀ {r} d, Has P c r → Has P c (op d r)) (l : List CtxId) (h : Has P c r) :
    Has P c (l.foldl (fun r d => op d r) r) := by
  induction l generalizing r with
  | nil => exact h
  | cons d l ih => exact ih (hop d h)

section Trait

variable (hP : Trait P)
include hP

theorem has_delayAdd (h : Has P c r) (d : CtxId) : Has P c (r.delayAdd d) := by
  unfold delayAdd
  split
  · exact h
  · split
    · exact h
    · exact (has_modify h (hP.willTime _) d).of_eq rfl

theorem has_expiryAdd (h : Has P c r) (d : CtxId) : Has P c (r.expiryAdd d) := by
  unfold expiryAdd
  split
  · exact h
  · split
    · exact h
    · exact (has_modify h (hP.expiryTime _) d).of_eq rfl

theorem has_sendWill (h : Has P c r) (d : CtxId) : Has P c (r.sendWill d) := by
  unfold sendWill
  split
  · exact h
  · split
    · exact has_delayAdd hP h d
    · exact has_modify h hP.willClear d

theorem has_removeFromById (h : Has P c r) (d : CtxId) : Has P c (r.removeFromById d) := by
  unfold removeFromById
  split
  · split
    · exact h
    · exact (has_modify h hP.removed d).of_eq rfl
  · exact h

theorem has_addToDisused (h : Has P c r) (d : CtxId) : Has P c (r.addToDisused d) := by
  unfold addToDisused
  split
  · exact h
  · split
    · exact h
    · have hdis := has_modify h (hP.setState .disused) d
      exact (has_modify (has_removeFromById hP hdis d) hP.nameless d).of_eq rfl

theorem has_endSession (h : Has P c r) (d : CtxId) : Has P c (r.endSession d) := by
  unfold endSession
  split
  · exact h
  · split
    · split
      · exact has_addToDisused hP h d
      · exact h
    · exact has_expiryAdd hP h d

theorem has_disconnect (h : Has P c r) (d : CtxId) : Has P c (r.disconnect d) := by
  unfold disconnect
  split
  · exact h
  · split
    · exact h
    · have hsent := has_sendWill hP (has_modify h hP.socketClose d) d
      exact has_modify (has_endSession hP hsent d) (hP.setState .disconnected) d

theorem has_expire (h : Has P c r) (d : CtxId) : Has P c (r.expire d) := by
  have hrem : Has P c (r.expiryRemove d) := h
  have hzero : Has P c (((r.expiryRemove d).modify d fun p =>
      { p with sessionExpiryInterval := 0, willDelayInterval := 0 }).delayRemove d) :=
    has_modify hrem hP.ended d
  exact has_addToDisused hP (has_sendWill hP hzero d) d

theorem has_fire (h : Has P c r) (d : CtxId) : Has P c (r.fire d) := by
  have hrem : Has P c (r.delayRemove d) := h
  have hsent := has_sendWill hP (has_modify hrem hP.undelayed d) d
  unfold fire
  simp only
  split
  · exact has_addToDisused hP hsent d
  · exact hsent

theorem has_takeOver (h : Has P c r) (found d : CtxId) : Has P c (r.takeOver found d) := by
  unfold takeOver
  split
  · rename_i old p hold hp
    simp only
    refine has_disconnect hP (has_modify ?_ (fun hq => ?_) found) found
    · split
      · exact (has_sendWill hP h found).of_eq rfl
      · exact h.of_eq rfl
    · exact hP.setState .duplicate (hP.settled (hP.willClear hq))
  · exact h

theorem has_expiryLoop (h : Has P c r) (l : List CtxId) : Has P c (r.expiryLoop l) := by
  induction l generalizing r with
  | nil => exact h
  | cons d l ih =>
    unfold expiryLoop
    split
    · exact ih (has_expire hP h d)
    · exact h

theorem has_delayLoop (h : Has P c r) (l : List CtxId) : Has P c (r.delayLoop l) := by
  induction l generalizing r with
  | nil => exact h
  | cons d l ih =>
    unfold delayLoop
    split
    · exact ih (has_fire hP h d)
    · exact h

/-- The client that sends a CONNECT is another one, or keeps the property. -/
theorem has_connect (h : Has P c r) {o : Outcome} {packet : ConnectPacket}
    (hown : d = c → ∀ {p}, P p → P p.refused ∧ P (p.connect packet o.interval)) :
    Has P c (r.connect o d packet) := by
  have hmodify : ∀ f : Party → Party, (d = c → ∀ {p}, P p → P (f p)) → Has P c (r.modify d f) := by
    intro f hf
    by_cases hd : d = c
    · exact has_modify h (hf hd) d
    · exact h.of_eq ((only_modify d f r).parties c fun e => hd e.symm)
  unfold connect
  split
  · simp only
    have hread := hmodify (·.connect packet o.interval) fun hd _ hp => (hown hd hp).2
    generalize r.modify d (·.connect packet o.interval) = r₀ at hread
    have hover : Has P c ((r₀.contextsById packet.clientId).elim r₀ (r₀.takeOver · d)) := by
      cases r₀.contextsById packet.clientId with
      | none => exact hread
      | some found => exact has_takeOver hP hread found d
    split
    · exact has_modify (hover.of_eq rfl) (hP.setState .active) d
    · exact hover.of_eq rfl
  · exact hmodify (·.refused) fun hd _ hp => (hown hd hp).1

/-- **An event keeps a trait** of every client whose own packets keep it. -/
theorem has_exec (h : Has P c r) {o : Outcome} {e : Event}
    (hnew : c = r.nextContext → ∀ sock, P (party (Context.init Config.init (some sock))))
    (hrefused : e.source = some c → ∀ {p}, P p → P p.refused)
    (hleave : e.source = some c → ∀ {p} packet, P p → P (p.disconnecting packet))
    (hconnect : ∀ maxQos packet, e = .connect c maxQos packet →
      ∀ {p}, P p → P (p.connect packet o.interval)) : Has P c (r.exec o e) := by
  have hmodify : ∀ (d : CtxId) (f : Party → Party), (d = c → ∀ {p}, P p → P (f p)) →
      Has P c (r.modify d f) := by
    intro d f hf
    by_cases hd : d = c
    · exact has_modify h (hf hd) d
    · exact h.of_eq ((only_modify d f r).parties c fun e => hd e.symm)
  have herror : ∀ {r : Registry} (d : CtxId), Has P c r → Has P c (r.afterError o.fail d) := by
    intro r d h
    unfold afterError
    split
    · exact has_disconnect hP h d
    · exact h
  cases e with
  | accept sock mountPoint =>
    intro p (hp : Function.update r.parties r.nextContext _ c = some p)
    rw [Function.update_apply] at hp
    split at hp
    · rename_i hc
      cases hp
      exact hnew hc sock
    · exact h p hp
  | connect d maxQos packet =>
    refine herror d (has_connect hP h fun hd => ?_)
    subst hd
    exact fun hp => ⟨hrefused rfl hp, hconnect maxQos packet rfl hp⟩
  | refuse d =>
    refine has_disconnect hP (hmodify d _ fun hd => ?_) d
    subst hd
    exact hrefused rfl
  | disconnect d packet =>
    refine has_disconnect hP (hmodify d _ fun hd => ?_) d
    subst hd
    exact hleave rfl packet
  | tick nowS nowRealS => exact h.of_eq rfl
  | expiryCheck =>
    show Has P c r.expiryCheck
    unfold expiryCheck
    split
    · exact h
    · have hlast : Has P c { r with lastExpiryCheck := r.now } := h
      exact has_expiryLoop hP hlast _
  | delayCheck =>
    show Has P c r.delayCheck
    unfold delayCheck
    split
    · exact h
    · have hlast : Has P c { r with lastDelayCheck := r.now } := h
      exact has_delayLoop hP hlast _
  | freeDisused => exact has_foldl (fun d h => has_cleanup h d) _ h
  | sysTree topic payload => exact h
  | publish d packet => exact herror d h
  | pubrel d packet => exact herror d h
  | ack d type packet => exact herror d h
  | pubrec d packet => exact herror d h
  | subscribe d packet => exact herror d h
  | unsubscribe d packet => exact herror d h
  | write d => exact herror d h

end Trait

end Registry

/-! ## Three traits -/

theorem trait_closed : Trait fun p => p.sock = none := by
  refine ⟨fun {p} state hp => ?_, fun _ => rfl, fun {p} hp => ?_, fun _ hp => hp, fun _ hp => hp,
    fun hp => hp, fun hp => hp, fun hp => hp, fun hp => hp, fun hp => hp⟩
  · unfold Party.setState
    split
    · exact hp
    · exact hp
  · unfold Party.willClear
    split
    · exact hp
    · exact hp

namespace Registry

variable {r : Registry} {c found : CtxId} {p q : Party}

/-- A client that is disconnected has no socket afterwards. -/
theorem closed_disconnect (hs : ∀ p, r.parties c = some p → p.state ≠ .disconnected) :
    Has (fun p => p.sock = none) c (r.disconnect c) := by
  unfold disconnect
  split
  · rename_i hnone
    exact fun p hp => nomatch hnone.symm.trans hp
  · rename_i p hp
    rw [if_neg (hs p hp)]
    have hclosed : Has (fun p => p.sock = none) c (r.modify c (·.socketClose)) := by
      intro q hq
      rw [modify_self, hp] at hq
      cases hq
      rfl
    have hsent := has_sendWill trait_closed hclosed c
    exact has_modify (has_endSession trait_closed hsent c) (trait_closed.setState .disconnected) c

/-- A client that is taken over has no socket afterwards. -/
theorem closed_takeOver (hq : r.parties found = some q) (hp : r.parties c = some p) :
    Has (fun p => p.sock = none) found (r.takeOver found c) := by
  unfold takeOver
  rw [hq, hp]
  refine closed_disconnect fun x hx => ?_
  rw [modify_self, Option.map_eq_some_iff] at hx
  obtain ⟨y, -, rfl⟩ := hx
  unfold Party.setState
  split
  · exact fun h => nomatch h
  · rename_i hdis
    exact fun h => nomatch (not_not.mp hdis).symm.trans h

end Registry

/-- The client has no will and no socket. -/
def Party.Silent (p : Party) : Prop := p.will = none ∧ p.sock = none

theorem trait_silent : Trait Party.Silent := by
  have hclear : ∀ {p : Party}, p.Silent → p.willClear = p := by
    intro p hp
    exact if_neg (by simp [hp.1])
  refine ⟨fun {p} state hp => ?_, fun hp => ⟨hp.1, rfl⟩, fun hp => ?_, fun _ hp => hp,
    fun _ hp => hp, fun hp => hp, fun hp => hp, fun hp => hp, fun hp => hp, fun hp => hp⟩
  · unfold Party.setState
    split
    · exact hp
    · exact hp
  · rw [hclear hp]
    exact hp

/-- A clean session of a protocol without intervals. -/
def Party.Clean (p : Party) : Prop :=
  p.protocol ≠ .mqtt5 → p.cleanStart = true → p.sessionExpiryInterval = 0

theorem clean_setState {p : Party} (state : ClientState) (hp : p.Clean) :
    (p.setState state).Clean := by
  unfold Party.setState
  split
  · exact hp
  · exact hp

theorem clean_willClear {p : Party} (hp : p.Clean) : p.willClear.Clean := by
  unfold Party.willClear
  split
  · exact hp
  · exact hp

theorem trait_clean : Trait Party.Clean :=
  ⟨clean_setState, fun hp => hp, clean_willClear, fun _ hp => hp, fun _ hp => hp, fun hp => hp,
    fun hp => hp, fun hp => hp, fun _ _ _ => rfl, fun _ _ _ => rfl⟩

theorem clean_disconnecting {p : Party} (packet : Option (Bool × Option Nat)) (hp : p.Clean) :
    (p.disconnecting packet).Clean := by
  cases packet with
  | none => exact hp
  | some packet =>
    obtain ⟨withWill, expiry⟩ := packet
    have hset : ∀ interval : Nat, (p.protocol ≠ .mqtt5 → interval = p.sessionExpiryInterval) →
        Party.Clean { p with sessionExpiryInterval := interval } := by
      intro interval h hprotocol hclean
      exact (h hprotocol).trans (hp hprotocol hclean)
    have hinterval := hset ((if p.protocol = .mqtt5 then expiry else none).getD
      p.sessionExpiryInterval) fun h => by rw [if_neg h]; rfl
    by_cases h : p.sessionExpiryInterval = 0 ∧
        (if p.protocol = .mqtt5 then expiry else none).any (· ≠ 0) = true
    · rw [show p.disconnecting (some (withWill, expiry)) = p from if_pos h]
      exact hp
    · cases withWill with
      | true =>
        refine Eq.mpr (congrArg Party.Clean (if_neg h)) ?_
        exact clean_setState _ hinterval
      | false =>
        refine Eq.mpr (congrArg Party.Clean (if_neg h)) ?_
        exact clean_setState _ (clean_willClear hinterval)

/-! ## Runs -/

/-- The states of the broker between two events. -/
inductive Reaches (env : Env) (config : Config) (clock : Nat → Reading) : State → Prop where
  | start : Reaches env config clock (State.dbOpen config clock)
  | next {b : State} (e : Event) (h : Reaches env config clock b) (hready : e.ready b = true) :
    Reaches env config clock (b.exec env e)

/-- All events of a run are possible. -/
def allReady (env : Env) : List Event → State → Bool
  | [], _ => true
  | e :: es, b => e.ready b && allReady env es (b.exec env e)

section Reaches

variable {env : Env} {config : Config} {clock : Nat → Reading} {b : State} {e : Event}

theorem Reaches.run {es : List Event} (h : Reaches env config clock b)
    (hready : allReady env es b = true) :
    Reaches env config clock (es.foldl (fun b e => b.exec env e) b) := by
  induction es generalizing b with
  | nil => exact h
  | cons e es ih =>
    rw [allReady, Bool.and_eq_true] at hready
    exact ih (h.next e hready.1) hready.2

theorem sound_next (h : b.registry.Sound) (hready : e.ready b = true) :
    (b.exec env e).registry.Sound := by
  obtain ⟨o, ho, -, hexec⟩ := @registry_exec env e b
  rw [hexec]
  exact Registry.sound_exec h ho fun c hc => Event.open_source hready hc

theorem clean_next (h : ∀ c, Registry.Has Party.Clean c b.registry) (c : CtxId) :
    Registry.Has Party.Clean c (b.exec env e).registry := by
  obtain ⟨o, ho, hfits, hexec⟩ := @registry_exec env e b
  rw [hexec]
  refine Registry.has_exec trait_clean (h c) (fun _ _ _ _ => rfl) (fun _ {p} _ _ _ => rfl)
    (fun _ {p} packet hp => clean_disconnecting packet hp) fun maxQos packet he => ?_
  subst he
  exact fun _ => hfits

theorem sound_reaches (h : Reaches env config clock b) :
    b.registry.Sound ∧ ∀ c, Registry.Has Party.Clean c b.registry := by
  induction h with
  | start =>
    have hnone : ∀ {c p}, ¬ (State.dbOpen config clock).registry.parties c = some p := nofun
    have hids : ∀ {k c}, ¬ (State.dbOpen config clock).registry.contextsById k = some c := nofun
    exact ⟨⟨tidy_start config clock, fun hp => absurd hp hnone, ⟨fun _ hp => absurd hp hnone,
      fun hk => absurd hk hids⟩, fun hp => absurd hp hnone⟩, fun c p hp => absurd hp hnone⟩
  | next e _ hready ih => exact ⟨sound_next ih.1 hready, clean_next ih.2⟩

end Reaches

end AdaptiveMqtt.Broker
