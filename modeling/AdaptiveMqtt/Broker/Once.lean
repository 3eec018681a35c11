import AdaptiveMqtt.Broker.Incoming
import AdaptiveMqtt.Broker.Session
import AdaptiveMqtt.Db.Conserve
import AdaptiveMqtt.Db.Outward

/-!
# A message once

A client may be reached through several subscriptions by one message. `db__message_insert`
looks for its id in `dest_ids` of the stored message and adds it after placing the message.
`sub__messages_queue` holds a reference meanwhile, so what is noted is not forgotten: the store
is not freed as long as its reference count covers the messages that refer to it (`Counted`).
-/

namespace AdaptiveMqtt.Db

open Lib

/-! ## References -/

/-- How many messages of a client refer to a store. -/
def Context.refers (ctx : Context) (s : StoreId) : Nat :=
  ctx.msgsIn.all.countP (·.store.addr = s) + ctx.msgsOut.all.countP (·.store.addr = s)

/-- The store exists, and `k` references are left when every message of the client has one. -/
def Counted (k : Int) (s : StoreId) (m : Machine) : Prop :=
  ∃ e, m.db.msgStore.get s = some e ∧ m.ctx.refers s + k ≤ e.refCount

section Counted

variable {R : Rules} {m m' : Machine} {k : Int} {s : StoreId}

theorem countP_key (s : StoreId) (l : List ClientMsg) :
    (l.map ClientMsg.key).countP (·.store.addr = s) = l.countP (·.store.addr = s) := by
  rw [List.countP_map]
  rfl

theorem refers_eq_msgs (ctx : Context) (s : StoreId) (d : Direction) :
    ∃ n, ∀ md, (ctx.setMsgs d md).refers s = md.all.countP (·.store.addr = s) + n ∧
      ctx.refers s = (ctx.msgs d).all.countP (·.store.addr = s) + n := by
  cases d with
  | mdIn => exact ⟨_, fun md => ⟨rfl, rfl⟩⟩
  | mdOut => exact ⟨_, fun md => ⟨Nat.add_comm _ _, Nat.add_comm _ _⟩⟩

theorem Counted.of_msgs (h : Counted k s m) (hin : m'.ctx.msgsIn = m.ctx.msgsIn)
    (hout : m'.ctx.msgsOut = m.ctx.msgsOut) (hrefs : m'.db.refs s = m.db.refs s) :
    Counted k s m' := by
  obtain ⟨e, hget, hle⟩ := h
  unfold MosquittoDb.refs at hrefs
  rw [hget, Option.map_some, Option.map_eq_some_iff] at hrefs
  obtain ⟨e', hget', heq⟩ := hrefs
  refine ⟨e', hget', ?_⟩
  rw [Context.refers, hin, hout, (Prod.mk.inj heq).2]
  exact hle

/-- A message less, and its reference. -/
theorem Counted.remove (hk : 1 ≤ k) (h : Counted k s m) {d : Direction} (hs : Sound d m)
    {item : ClientMsg} (hmem : item.key ∈ (m.ctx.msgs d).inflight.map ClientMsg.key) :
    Counted k s (m.messageRemove d item) := by
  obtain ⟨e, hget, hle⟩ := h
  obtain ⟨n, hn⟩ := refers_eq_msgs m.ctx s d
  obtain ⟨hafter, hbefore⟩ := hn ((m.ctx.msgs d).remove item)
  have hperm := (MsgData.remove_perm hs.nodup hmem).countP_eq (·.store.addr = s)
  rw [List.countP_cons, countP_key, countP_key, ClientMsg.key_store] at hperm
  show ∃ e', (m.db.msgStoreRefDec item.store.addr).msgStore.get s = some e' ∧
    ((m.ctx.setMsgs d _).refers s : Int) + k ≤ e'.refCount
  rw [hafter]
  unfold MosquittoDb.msgStoreRefDec
  by_cases hitem : item.store.addr = s
  · subst hitem
    simp only [decide_true, if_true] at hperm
    have hnz : ¬ e.refCount - 1 = 0 := by omega
    simp only [hget, if_neg hnz, Heap.get_set_self]
    exact ⟨_, rfl, by simp only; omega⟩
  · simp only [decide_eq_true_eq, hitem, if_false] at hperm
    refine ⟨e, ?_, by omega⟩
    split
    · exact hget
    · split
      · rw [Heap.get_del_ne _ (Ne.symm hitem)]
        exact hget
      · rw [Heap.get_set_ne _ _ (Ne.symm hitem)]
        exact hget

theorem counted_micro (hk : 1 ≤ k) (hs : ∀ d, Sound d m) (h : Counted k s m)
    (hm : Micro R m m') : Counted k s m' := by
  cases hm with
  | frame hf => exact h.of_msgs hf.msgsIn hf.msgsOut (hf.refs s)
  | publish p hp => exact h.of_msgs rfl rfl rfl
  | command c => exact h.of_msgs rfl rfl rfl
  | @shuffle dir md hdir hsh =>
    obtain ⟨e, hget, hle⟩ := h
    obtain ⟨n, hn⟩ := refers_eq_msgs m.ctx s dir
    have hperm := hsh.perm.countP_eq (·.store.addr = s)
    rw [countP_key, countP_key] at hperm
    refine ⟨e, hget, ?_⟩
    show ((m.ctx.setMsgs dir md).refers s : Int) + k ≤ _
    rw [(hn md).1, hperm, ← (hn md).2]
    exact hle
  | @place dir msg qos hdir hid hlive haddr hmode hexact =>
    obtain ⟨e, hget, hle⟩ := h
    obtain ⟨n, hn⟩ := refers_eq_msgs m.ctx s dir
    obtain ⟨hafter, hbefore⟩ := hn (((m.ctx.msgs dir).place msg).count msg qos)
    have hperm := (MsgData.place_count_all (m.ctx.msgs dir) msg qos).countP_eq (·.store.addr = s)
    rw [List.countP_cons] at hperm
    have hrefers : (placeMsg dir msg qos m).ctx.refers s =
        (m.ctx.setMsgs dir (((m.ctx.msgs dir).place msg).count msg qos)).refers s := rfl
    show ∃ e', ((m.db.msgStore.modify msg.store.addr _).get s) = some e' ∧
      ((placeMsg dir msg qos m).ctx.refers s : Int) + k ≤ e'.refCount
    rw [hrefers, hafter, Heap.get_modify]
    by_cases hmsg : msg.store.addr = s
    · subst hmsg
      simp only [decide_true, if_true] at hperm
      rw [if_pos rfl, hget]
      exact ⟨_, rfl, by simp only; omega⟩
    · simp only [decide_eq_true_eq, hmsg, if_false] at hperm
      rw [if_neg (Ne.symm hmsg)]
      exact ⟨e, hget, by omega⟩
  | removeOut hdir hmem he hexact =>
    exact (h.remove hk (hs .mdOut) hmem).of_msgs rfl rfl rfl
  | removeIn hdir hmem => exact h.remove hk (hs .mdIn) hmem

theorem counted_steps (hk : 1 ≤ k) (hs : ∀ d, Sound d m) (h : Counted k s m) (hm : Steps R m m') :
    Counted k s m' := by
  induction hm with
  | refl => exact h
  | tail hm hstep ih => exact counted_micro hk (fun d => sound_steps (hs d) hm) ih hstep

end Counted

/-! ## Client ids that are noted -/

/-- What is stored was stored before, with fewer client ids noted at most. -/
def Noting (m m' : Machine) : Prop :=
  ∀ s e', m'.db.msgStore.get s = some e' →
    ∃ e, m.db.msgStore.get s = some e ∧ e.destIds <+: e'.destIds

/-- The copies of a message that were placed for a client. -/
def copies (s : StoreId) (ctx : Context) : Nat :=
  (placedIn ctx.journal).countP (·.store.addr = s)

section Noting

variable {net : Net} {m m' m'' : Machine}

theorem Noting.refl (m : Machine) : Noting m m := fun _ e he => ⟨e, he, List.prefix_rfl⟩

theorem Noting.trans (h : Noting m m') (h' : Noting m' m'') : Noting m m'' := fun s e'' he'' => by
  obtain ⟨e', he', hp'⟩ := h' s e'' he''
  obtain ⟨e, he, hp⟩ := h s e' he'
  exact ⟨e, he, hp.trans hp'⟩

theorem noting_of_modify {s : StoreId} {f : StoreEntry → StoreEntry}
    (hf : ∀ e, e.destIds <+: (f e).destIds)
    (h : m'.db.msgStore = m.db.msgStore.modify s f) : Noting m m' := by
  intro s' e' he'
  rw [h, Heap.get_modify] at he'
  split at he'
  · obtain ⟨e, he, rfl⟩ := Option.map_eq_some_iff.mp he'
    rename_i hs
    exact ⟨e, hs ▸ he, hf e⟩
  · exact ⟨e', he', List.prefix_rfl⟩

theorem noting_refInc {s : StoreId} (h : m'.db.msgStore = (m.db.msgStoreRefInc s).msgStore) :
    Noting m m' :=
  noting_of_modify (f := fun e => { e with refCount := e.refCount + 1 }) (fun _ => List.prefix_rfl) h

theorem noting_addDestId (s : StoreId) (id : Bytes) (m : Machine) :
    Noting m { m with db := m.db.addDestId s id } :=
  noting_of_modify (f := fun e => { e with destIds := e.destIds ++ [id] })
    (fun _ => List.prefix_append _ _) rfl

theorem noting_refDec (s : StoreId) (m : Machine) :
    Noting m { m with db := m.db.msgStoreRefDec s } := by
  intro s' e' he'
  unfold MosquittoDb.msgStoreRefDec at he'
  split at he'
  · exact ⟨e', he', List.prefix_rfl⟩
  · rename_i e he
    split at he'
    · rw [Heap.get_del] at he'
      split at he'
      · cases he'
      · exact ⟨e', he', List.prefix_rfl⟩
    · rw [Heap.get_set] at he'
      split at he'
      · rename_i hs
        cases he'
        exact ⟨e, hs ▸ he, List.prefix_rfl⟩
      · exact ⟨e', he', List.prefix_rfl⟩

theorem noting_elsewhere (h : Elsewhere m m') :
    Noting m m' ∧ placedIn m'.ctx.journal = placedIn m.ctx.journal :=
  ⟨fun s e he => ⟨e, h.msgStore ▸ he, List.prefix_rfl⟩, by rw [h.journal]⟩

/-- A write forgets nothing that is noted, and places nothing. -/
theorem noting_outward (h : Outward net m m') :
    Noting m m' ∧ placedIn m'.ctx.journal = placedIn m.ctx.journal := by
  cases h with
  | elsewhere h => exact noting_elsewhere h
  | lists f => exact ⟨.refl m, rfl⟩
  | pubrel mid => exact ⟨.refl m, rfl⟩
  | refDec s => exact ⟨noting_refDec s m, rfl⟩
  | note s id => exact ⟨noting_addDestId s id m, rfl⟩
  | @removed e item he =>
    refine ⟨.refl m, ?_⟩
    show placedIn (m.ctx.journal ++ [e]) = _
    rw [placedIn_append]
    cases e with
    | placed | received => cases he
    | acked | expired | published => exact List.append_nil _

theorem noting_outwards (h : Outwards net m m') :
    Noting m m' ∧ placedIn m'.ctx.journal = placedIn m.ctx.journal := by
  induction h with
  | refl => exact ⟨.refl m, rfl⟩
  | tail _ hw ih =>
    exact ⟨ih.1.trans (noting_outward hw).1, (noting_outward hw).2.trans ih.2⟩

/-- Placing a message. -/
theorem noting_insertMsg (mid : UInt16) (qos : Qos) (retain : Bool) (stored : MsgStore)
    (properties : List Property) (state : MsgState) (m : Machine) :
    Noting m (insertMsg mid .mdOut qos retain stored properties state m) ∧
      copies stored.addr (insertMsg mid .mdOut qos retain stored properties state m).ctx =
        copies stored.addr m.ctx + 1 := by
  have hone : ∀ msg : ClientMsg, msg.store = stored →
      (placedIn (m.ctx.journal ++ [.placed msg])).countP (·.store.addr = stored.addr) =
        copies stored.addr m.ctx + 1 := by
    rintro msg rfl
    rw [placedIn_append, List.countP_append]
    simp [placedIn, copies]
  unfold insertMsg
  simp only
  split
  · exact ⟨noting_refInc rfl, hone _ rfl⟩
  · exact ⟨noting_refInc rfl, hone _ rfl⟩

theorem noting_messageInsert (mid : UInt16) (qos : Qos) (retain : Bool) (stored : MsgStore)
    (properties : List Property) (update : Bool) (m : Machine) :
    Noting m (messageInsert net mid .mdOut qos retain stored properties update m).2 := by
  rcases @messageInsert_outward net mid qos retain stored properties update m with helse |
    ⟨id, mid', properties', state, m₁, -, -, hbefore, hafter⟩
  · exact (noting_elsewhere helse).1
  · have hnote : ∀ m : Machine, Noting m (noteDestId .mdOut retain stored id m) := by
      intro m
      unfold noteDestId
      split
      · exact noting_addDestId _ _ m
      · exact .refl m
    exact (((noting_elsewhere hbefore).1.trans (noting_insertMsg ..).1).trans (hnote _)).trans
      (noting_outwards hafter).1

/-- An insert places no copy, or the first one: then the client id is noted, if the store
lives. -/
theorem messageInsert_once (mid : UInt16) (qos : Qos) (stored : MsgStore)
    (properties : List Property) (update : Bool) {m m' : Machine}
    (h : (messageInsert net mid .mdOut qos false stored properties update m).2 = m')
    (hdup : m.db.config.allowDuplicateMessages = false) (hprotocol : m.ctx.protocol ≠ .mqtt5) :
    copies stored.addr m'.ctx = copies stored.addr m.ctx ∨
      ∃ id, m.ctx.id = some id ∧ copies stored.addr m'.ctx = copies stored.addr m.ctx + 1 ∧
        (∀ e, m.db.msgStore.get stored.addr = some e → id ∉ e.destIds) ∧
        ∀ e', m'.db.msgStore.get stored.addr = some e' → id ∈ e'.destIds := by
  rcases @messageInsert_outward net mid qos false stored properties update m with helse |
    ⟨id, mid', properties', state, m₁, hid, hrefused, hbefore, hafter⟩
  · rw [h] at helse
    exact .inl (by rw [copies, (noting_elsewhere helse).2]; rfl)
  · rw [h] at hafter
    generalize hm₂ : insertMsg mid' .mdOut qos false stored properties' state m₁ = m₂ at hafter
    have hone : copies stored.addr m₂.ctx = copies stored.addr m.ctx + 1 := by
      rw [← hm₂, (noting_insertMsg mid' qos false stored properties' state m₁).2, copies,
        (noting_elsewhere hbefore).2]
      rfl
    have hconfig : m₂.db.config = m.db.config := by
      rw [← hm₂, ← hbefore.config]
      exact (rests_insertMsg mid' .mdOut qos false stored properties' state m₁).config
    have hnote : noteDestId .mdOut false stored id m₂ =
        { m₂ with db := m₂.db.addDestId stored.addr id } := by
      unfold noteDestId
      rw [if_pos ⟨hconfig ▸ hdup, rfl, rfl⟩]
    rw [hnote] at hafter
    obtain ⟨hnoting, hjournal⟩ := noting_outwards hafter
    refine .inr ⟨id, hid, ?_, fun e he hmem => ?_, fun e' he' => ?_⟩
    · rw [copies, hjournal]
      exact hone
    · -- the id was not there, or the insert would have been refused
      unfold insertRefused at hrefused
      rw [he] at hrefused
      simp only [Option.map_some, Option.getD_some] at hrefused
      rw [if_pos ⟨hprotocol, hdup, trivial, trivial, hmem⟩] at hrefused
      cases hrefused
    · obtain ⟨e, he, hpre⟩ := hnoting stored.addr e' he'
      have hmod : ((m₂.db.msgStore.modify stored.addr fun e =>
        { e with destIds := e.destIds ++ [id] }).get stored.addr) = some e := he
      rw [Heap.get_modify, if_pos rfl, Option.map_eq_some_iff] at hmod
      obtain ⟨e₀, -, rfl⟩ := hmod
      exact hpre.subset (List.mem_append_right _ List.mem_cons_self)

end Noting

end AdaptiveMqtt.Db

namespace AdaptiveMqtt.Broker

open Lib Topic AdaptiveMqtt.Sub Db

/-- How many messages of clients refer to a store. -/
def State.refers (b : State) (s : StoreId) : Nat := b.contexts.sum fun _ ctx => ctx.refers s

/-- What the pointers of a broker are like: the messages of every client are cells of their own,
and the stored message is there, with a reference for every message that refers to it. -/
structure Pointers (b : State) (s : StoreId) (k : Int) : Prop where
  sound : ∀ {c ctx}, b.contexts.get c = some ctx → ∀ d, Sound d ⟨b.db, ctx⟩
  counted : ∃ e, b.db.msgStore.get s = some e ∧ b.refers s + k ≤ e.refCount

theorem nextMsg_steps {R : Rules} {m m' : Machine} (h : Steps R m m') :
    m.db.nextMsg ≤ m'.db.nextMsg := by
  induction h with
  | refl => exact le_rfl
  | tail _ h ih => exact ih.trans (nextMsg_micro h)

section Once

variable {b b' : State} {c : CtxId} {ctx : Context} {s : StoreId} {n : Nat}

/-- The state of the search: at most one copy was placed for the client since it had `n`, and if
one was, its id is noted. -/
structure OnceSent (c : CtxId) (s : StoreId) (n : Nat) (b : State) : Prop where
  pointers : Pointers b s 1
  config : b.db.config.allowDuplicateMessages = false
  client : ∃ ctx, b.contexts.get c = some ctx ∧ ctx.protocol ≠ .mqtt5 ∧
    (copies s ctx = n ∨ copies s ctx = n + 1 ∧ ∃ id e, ctx.id = some id ∧
      b.db.msgStore.get s = some e ∧ id ∈ e.destIds)

theorem pointers_insert {d : CtxId} (h : Pointers b s 1) (hget : b.contexts.get d = some ctx)
    (env : Env) (qos : Qos) (retain : Bool) (stored : MsgStore) (properties : List Property)
    (lastMid mid : UInt16) {m' : Machine}
    (hm : (messageInsert env.net mid .mdOut qos retain stored properties true
      ⟨b.db, { ctx with lastMid }⟩).2 = m') :
    Pointers { b with db := m'.db, contexts := b.contexts.set d m'.ctx } s 1 ∧
      m'.db.config = b.db.config ∧ m'.ctx.protocol = ctx.protocol ∧ m'.ctx.id = ctx.id := by
  let R : Rules :=
    { net := env.net, exact := false, slow := false, live := fun _ => True, touch := (· = .mdOut) }
  let m : Machine := ⟨b.db, { ctx with lastMid }⟩
  have hsound : ∀ dir, Sound dir m := fun dir => by
    have hs := h.sound hget dir
    cases dir <;> exact ⟨hs.nodup, hs.fresh⟩
  have hsteps : Steps R m m' := hm ▸ steps_messageInsert (R := R) rfl
    ⟨hsound .mdOut, fun h => absurd h Bool.false_ne_true⟩ trivial mid qos retain properties true
    fun h => absurd h Bool.false_ne_true
  have hnext : b.db.nextMsg ≤ m'.db.nextMsg := nextMsg_steps hsteps
  have hcore := core_steps hsteps
  have hprotocol : m'.ctx.protocol = m.ctx.protocol :=
    Context.of_core (·.protocol) (fun _ => rfl) hcore.2
  have hid : m'.ctx.id = m.ctx.id := Context.of_core (·.id) (fun _ => rfl) hcore.2
  refine ⟨⟨fun {c' ctx'} hget' dir => ?_, ?_⟩, hcore.1, hprotocol, hid⟩
  · rw [Heap.get_set] at hget'
    split at hget'
    · cases hget'
      exact sound_steps (hsound dir) hsteps
    · exact (h.sound hget' dir).of_eq rfl hnext
  · obtain ⟨e, he, hle⟩ := h.counted
    have hsum := Heap.sum_set_old (fun _ (ctx : Context) => ctx.refers s) m'.ctx hget
    have hbefore : Counted (1 + (b.refers s - ctx.refers s : Int)) s m :=
      ⟨e, he, by show (ctx.refers s : Int) + _ ≤ _; omega⟩
    have hle' : ctx.refers s ≤ b.refers s := Heap.le_sum (fun _ (ctx : Context) => ctx.refers s) hget
    obtain ⟨e', he', hle''⟩ := counted_steps (by omega) hsound hbefore hsteps
    refine ⟨e', he', ?_⟩
    show ((b.contexts.set d m'.ctx).sum (fun _ ctx => ctx.refers s) : Int) + 1 ≤ _
    unfold State.refers at hle' hle''
    omega

theorem onceSent_subsSend {stored : MsgStore} (h : OnceSent c stored.addr n b) (env : Env)
    (topic : Bytes) (qos : Qos) (retain : Bool) {leaf : SubLeaf}
    (hleaf : leaf.context = c → leaf.retainAsPublished = false) :
    OnceSent c stored.addr n (subsSend env topic qos retain stored leaf b).2 := by
  unfold subsSend
  split
  · exact h
  · rename_i ctx₀ hget₀
    simp only
    split
    · exact h
    · split
      · generalize (if b.db.config.upgradeOutgoingQos then leaf.qos else Qos.min qos leaf.qos) =
          msgQos
        obtain ⟨lastMid, hmid⟩ := midFor_eq msgQos ⟨b.db, ctx₀⟩
        unfold State.onClient
        simp only [hget₀, hmid]
        generalize hm : (messageInsert env.net (midFor msgQos ⟨b.db, ctx₀⟩).1 .mdOut msgQos
          (leaf.retainAsPublished && retain) stored (identifierProperty leaf.identifier) true
          ⟨b.db, { ctx₀ with lastMid }⟩).2 = m'
        obtain ⟨hpointers, hconfig, hprotocol, hid⟩ := pointers_insert h.pointers hget₀ env msgQos
          _ stored _ lastMid _ hm
        have hnoting : Noting ⟨b.db, { ctx₀ with lastMid }⟩ m' := by
          rw [← hm]
          exact noting_messageInsert _ _ _ _ _ _ _
        obtain ⟨e', he', -⟩ := hpointers.counted
        obtain ⟨ctx, hget, hmqtt, hcopies⟩ := h.client
        refine ⟨hpointers, hconfig ▸ h.config, ?_⟩
        by_cases hc : leaf.context = c
        · subst hc
          cases hget₀.symm.trans hget
          rw [hleaf rfl, Bool.false_and] at hm
          have hplaced := messageInsert_once _ msgQos stored _ true hm h.config hmqtt
          refine ⟨m'.ctx, Heap.get_set_self _ _ _, hprotocol ▸ hmqtt, ?_⟩
          rcases hplaced with hsame | ⟨id, hid', hone, hnew, hnoted⟩
          · rcases hcopies with hn | ⟨hn, id, e, hid', he, hmem⟩
            · exact .inl (hsame.trans hn)
            · obtain ⟨e₀, he₀, hpre⟩ := hnoting _ _ he'
              cases he.symm.trans he₀
              exact .inr ⟨hsame.trans hn, id, e', hid.trans hid', he', hpre.subset hmem⟩
          · rcases hcopies with hn | ⟨hn, id₂, e, hid₂, he, hmem⟩
            · refine .inr ⟨hone.trans (congrArg (· + 1) hn), id, e', hid.trans hid', he',
                hnoted e' he'⟩
            · cases hid'.symm.trans hid₂
              exact absurd hmem (hnew e he)
        · refine ⟨ctx, (Heap.get_set_ne _ _ (Ne.symm hc)).trans hget, hmqtt, ?_⟩
          rcases hcopies with hn | ⟨hn, id, e, hid', he, hmem⟩
          · exact .inl hn
          · obtain ⟨e₀, he₀, hpre⟩ := hnoting _ _ he'
            cases he.symm.trans he₀
            exact .inr ⟨hn, id, e', hid', he', hpre.subset hmem⟩
      · exact h

/-- The caller refers to the message too. -/
theorem pointers_refInc (h : Pointers b s 0) (passed : List MsgStore) :
    Pointers { b with passed, db := b.db.msgStoreRefInc s } s 1 := by
  obtain ⟨e, he, hle⟩ := h.counted
  refine ⟨fun hget d => (h.sound hget d).of_eq rfl le_rfl, ⟨{ e with refCount := e.refCount + 1 }, ?_, ?_⟩⟩
  · show (b.db.msgStore.modify s _).get s = _
    rw [Heap.get_modify, if_pos rfl, he]
    rfl
  · show (b.refers s : Int) + 1 ≤ e.refCount + 1
    omega

/-- **At most one copy**: without `allow_duplicate_messages`, one call of `sub__messages_queue`
places the message at most once for a client that is not one of MQTT 5 and whose
subscriptions, shared or not, are without `retain_as_published`. -/
theorem at_most_one_copy (env : Env) (sourceId topic : Bytes) (qos : Qos) (retain : Bool)
    {stored : MsgStore} (hpointers : Pointers b stored.addr 0)
    (hdup : b.db.config.allowDuplicateMessages = false) (hget : b.contexts.get c = some ctx)
    (hprotocol : ctx.protocol ≠ .mqtt5)
    (hsubs : EachSub (fun leaf => leaf.context = c → leaf.retainAsPublished = false) b.subs.tree) :
    ∃ ctx', (subMessagesQueue env sourceId topic qos retain stored b).2.contexts.get c = some ctx' ∧
      copies stored.addr ctx' ≤ copies stored.addr ctx + 1 := by
  unfold subMessagesQueue
  simp only
  split
  · exact ⟨ctx, hget, Nat.le_succ _⟩
  · rename_i splitTopics share htok
    have hstart : OnceSent c stored.addr (copies stored.addr ctx)
        { b with passed := b.passed ++ [stored], db := b.db.msgStoreRefInc stored.addr } :=
      ⟨pointers_refInc hpointers _, hdup, ctx, hget, hprotocol, .inl rfl⟩
    have hsearch : OnceSent c stored.addr (copies stored.addr ctx)
        (searchRoot (fun _ _ leaf b => subsSend env topic qos retain stored leaf b)
          b.ids sourceId splitTopics b.subs.tree
          { b with passed := b.passed ++ [stored], db := b.db.msgStoreRefInc stored.addr }).2.2 := by
      refine keeps_searchRoot_of (P := OnceSent c stored.addr (copies stored.addr ctx))
        (fun _ _ leaf b' hleaf hb => ?_) splitTopics hsubs hstart
      exact onceSent_subsSend hb env topic qos retain hleaf
    obtain ⟨ctx', hget', -, hcopies⟩ := hsearch.client
    refine ⟨ctx', ?_, ?_⟩
    · split
      · show (retainStore stored splitTopics _).contexts.get c = _
        rw [retainStore_contexts]
        exact hget'
      · exact hget'
    · rcases hcopies with hn | ⟨hn, -⟩
      · exact hn.le.trans (Nat.le_succ _)
      · exact hn.le

end Once

/-- The message that is published below. -/
def greeting : MsgStore :=
  { addr := 1, origin := .moClient, sourceId := ascii "p", sourceMid := 0, topic := ascii "a/b"
    payload := [], properties := [], messageExpiryTime := 0, qos := .q1, retain := false }

/-- A client of MQTT 3.1.1 without messages. -/
def overlapping : Context :=
  { Context.init Config.init (some 4) with
    id := some (ascii "c"), state := .active, protocol := .mqtt311 }

/-- The client subscribes to three filters that match the message. -/
def overlappingBroker : State :=
  let b := State.dbOpen Config.init fun _ => ⟨0, 0, 0⟩
  { b with
    db := { b.db with msgStore := (∅ : Heap StoreId StoreEntry).set 1 ⟨greeting, 0, []⟩, lastDbId := 1 }
    contexts := (∅ : Heap CtxId Context).set 0 overlapping, nextContext := 1
    subs := [ascii "a/b", ascii "a/+", ascii "$share/g/a/#"].foldl
      (fun w sub => w.edit 0 fun st =>
        (subAdd (fun _ => some (ascii "c")) 0 .mqtt311 sub .q1 0 0 st).2) .init }

theorem at_most_one_copy_of_three :
    ∃ ctx', (subMessagesQueue .granting (ascii "p") (ascii "a/b") .q1 false greeting
        overlappingBroker).2.contexts.get 0 = some ctx' ∧
      copies 1 ctx' ≤ 1 ∧ copies 1 ctx' = 1 := by
  have hclient : ∀ {d ctx}, overlappingBroker.contexts.get d = some ctx → ctx = overlapping := by
    intro d ctx hget
    exact (Heap.get_set_empty (show ((∅ : Heap CtxId Context).set 0 overlapping).get d = some ctx
      from hget)).2
  have hentry : overlappingBroker.db.msgStore.get 1 = some ⟨greeting, 0, []⟩ := by
    show ((∅ : Heap StoreId StoreEntry).set 1 ⟨greeting, 0, []⟩).get 1 = _
    exact Heap.get_set_self _ _ _
  have hget : overlappingBroker.contexts.get 0 = some overlapping := by
    show ((∅ : Heap CtxId Context).set 0 overlapping).get 0 = _
    exact Heap.get_set_self _ _ _
  have hpointers : Pointers overlappingBroker 1 0 := by
    refine ⟨fun {d ctx} hget dir => ?_, ⟨greeting, 0, []⟩, hentry, by decide +kernel⟩
    have hempty : (ctx.msgs dir).all = [] := by
      rw [hclient hget]
      cases dir <;> rfl
    refine ⟨?_, fun a ha => ?_⟩
    · show ((ctx.msgs dir).all.map _).Nodup
      rw [hempty]
      exact List.nodup_nil
    · change a ∈ (ctx.msgs dir).all at ha
      rw [hempty] at ha
      cases ha
  have hleaves : ∀ e ∈ overlappingBroker.subs.tree.nodes.entries,
      (∀ leaf ∈ e.2.subs, leaf.retainAsPublished = false) ∧
        ∀ g ∈ e.2.shared, ∀ leaf ∈ g.subs, leaf.retainAsPublished = false := by decide +kernel
  have hsubs : EachSub (fun leaf => leaf.context = 0 → leaf.retainAsPublished = false)
      overlappingBroker.subs.tree := by
    intro p h hnode
    have hall := hleaves ⟨p, h⟩ ((Heap.mem_entries_iff _ _ _).mpr hnode)
    exact ⟨fun leaf hl _ => hall.1 leaf hl, fun g hg leaf hl _ => hall.2 g hg leaf hl⟩
  obtain ⟨ctx', hget', hle⟩ := @at_most_one_copy _ 0 _ .granting (ascii "p")
    (ascii "a/b") .q1 false greeting hpointers (by decide +kernel) hget (by decide) hsubs
  refine ⟨ctx', hget', hle, ?_⟩
  have hone : ((subMessagesQueue .granting (ascii "p") (ascii "a/b") .q1 false greeting
      overlappingBroker).2.contexts.get 0).map (copies 1) = some 1 := by decide +kernel
  rw [hget'] at hone
  exact Option.some.inj hone

end AdaptiveMqtt.Broker
