import AdaptiveMqtt.Broker.Moves
import AdaptiveMqtt.Topic.Levels

/-!
# The functions of the broker as moves

One lemma a function: from a well-formed state it is a sequence of moves.
-/

namespace AdaptiveMqtt.Broker

open Lib Topic AdaptiveMqtt.Sub Db

/-! ## Searching -/

section Search

variable {σ : Type} {send : Path → Option Bytes → SubLeaf → σ → Rc × σ}
  {ids : CtxId → Option Bytes} {sourceId : Bytes} {Q : SubLeaf → Prop} {P : σ → Prop}

structure EachLeaf (Q : SubLeaf → Prop) (h : SubHier) : Prop where
  subs : ∀ leaf ∈ h.subs, Q leaf
  shared : ∀ g ∈ h.shared, ∀ leaf ∈ g.subs, Q leaf

/-- Every leaf of the tree. -/
def EachSub (Q : SubLeaf → Prop) (t : SubTree) : Prop :=
  ∀ p h, t.nodes.get p = some h → EachLeaf Q h

def Searching (Q : SubLeaf → Prop) (P : σ → Prop) (r : SubTree × σ) : Prop := EachSub Q r.1 ∧ P r.2

theorem keeps_sharedProcess (hsend : ∀ p g leaf s, Q leaf → P s → P (send p g leaf s).2) (p : Path)
    (groups : List SubShared) {s : σ} (hgroups : ∀ g ∈ groups, ∀ leaf ∈ g.subs, Q leaf)
    (hs : P s) :
    (∀ g ∈ (subsSharedProcess send p groups s).2.1, ∀ leaf ∈ g.subs, Q leaf) ∧
      P (subsSharedProcess send p groups s).2.2 := by
  induction groups generalizing s with
  | nil => exact ⟨nofun, hs⟩
  | cons g groups ih =>
    have hrest := fun g' hg' => hgroups g' (List.mem_cons_of_mem g hg')
    unfold subsSharedProcess
    split
    · obtain ⟨hq, hp⟩ := ih hrest hs
      exact ⟨List.forall_mem_cons.mpr ⟨hgroups g List.mem_cons_self, hq⟩, hp⟩
    · rename_i leaf rest hsubs
      have hmembers := hgroups g List.mem_cons_self
      rw [hsubs, List.forall_mem_cons] at hmembers
      obtain ⟨hq, hp⟩ := ih hrest (hsend p (some g.name) leaf s hmembers.1 hs)
      refine ⟨List.forall_mem_cons.mpr ⟨fun x hx => ?_, hq⟩, hp⟩
      rcases List.mem_append.mp hx with hx | hx
      · exact hmembers.2 x hx
      · exact List.mem_singleton.mp hx ▸ hmembers.1

theorem keeps_leafLoop (hsend : ∀ p g leaf s, Q leaf → P s → P (send p g leaf s).2) (p : Path)
    (leaves : List SubLeaf) (rc : Rc) {s : σ} (hleaves : ∀ leaf ∈ leaves, Q leaf) (hs : P s) :
    P (subsLeafLoop send ids p sourceId leaves rc s).2 := by
  induction leaves generalizing rc s with
  | nil => exact hs
  | cons leaf leaves ih =>
    rw [List.forall_mem_cons] at hleaves
    unfold subsLeafLoop
    split
    · exact ih _ hleaves.2 hs
    · exact ih _ hleaves.2 (hsend _ _ _ _ hleaves.1 hs)

theorem keeps_process (hsend : ∀ p g leaf s, Q leaf → P s → P (send p g leaf s).2) (p : Path)
    {t : SubTree} {s : σ} (h : Searching Q P (t, s)) :
    Searching Q P (subsProcess send ids sourceId p t s).2 := by
  obtain ⟨ht, hs⟩ := h
  unfold subsProcess
  split
  · exact ⟨ht, hs⟩
  · rename_i h hget
    have hnode := ht p h hget
    obtain ⟨hq, hp⟩ := keeps_sharedProcess hsend p h.shared hnode.shared hs
    have hleaf := @keeps_leafLoop σ send ids sourceId Q P hsend p h.subs
      (subsSharedProcess send p h.shared s).1 _ hnode.subs hp
    have htree : EachSub Q (t.setNode p { h with shared := (subsSharedProcess send p h.shared s).2.1 })
        := by
      intro p' h' hget'
      unfold SubTree.setNode at hget'
      rw [Heap.get_set] at hget'
      split at hget'
      · cases hget'
        exact ⟨hnode.subs, hq⟩
      · exact ht p' h' hget'
    simp only
    split <;> exact ⟨htree, hleaf⟩

theorem keeps_absorb {r : Rc × SubTree × σ} {found : Bool}
    {k : Bool → SubTree → σ → Rc × SubTree × σ} (hr : Searching Q P r.2)
    (hk : ∀ found t s, Searching Q P (t, s) → Searching Q P (k found t s).2) :
    Searching Q P (absorb r found k).2 := by
  unfold absorb
  split
  · exact hk _ _ _ hr
  · split
    · exact hr
    · exact hk _ _ _ hr

theorem keeps_searchHash (hsend : ∀ p g leaf s, Q leaf → P s → P (send p g leaf s).2) (p : Path)
    (found : Bool) {t : SubTree} {s : σ} (hs : Searching Q P (t, s)) :
    Searching Q P (searchHash send ids sourceId p found t s).2 := by
  have hdone : ∀ (found : Bool) (t : SubTree) (s : σ), Searching Q P (t, s) →
      Searching Q P (if found = true then (Rc.success, t, s) else (Rc.noSubscribers, t, s) :
        Rc × SubTree × σ).2 := by
    intro found t s hs
    split <;> exact hs
  unfold searchHash
  simp only
  split
  · exact keeps_absorb (keeps_process hsend _ hs) hdone
  · exact hdone _ _ _ hs

theorem keeps_searchBranch (hsend : ∀ p g leaf s, Q leaf → P s → P (send p g leaf s).2)
    {search : Path → SubTree → σ → Rc × SubTree × σ}
    (hsearch : ∀ p t s, Searching Q P (t, s) → Searching Q P (search p t s).2) (last : Bool) (p : Path)
    (found : Bool) {t : SubTree} {s : σ} {k : Bool → SubTree → σ → Rc × SubTree × σ}
    (hk : ∀ found t s, Searching Q P (t, s) → Searching Q P (k found t s).2) (hs : Searching Q P (t, s)) :
    Searching Q P (searchBranch send ids sourceId search last p found t s k).2 := by
  unfold searchBranch
  split
  · exact hk _ _ _ hs
  · refine keeps_absorb (hsearch _ _ _ hs) fun found t s hs => ?_
    split
    · exact keeps_absorb (keeps_process hsend _ hs) hk
    · exact hk _ _ _ hs

theorem keeps_subSearch (hsend : ∀ p g leaf s, Q leaf → P s → P (send p g leaf s).2)
    (topics : List Bytes) : ∀ (p : Path) (t : SubTree) (s : σ), Searching Q P (t, s) →
      Searching Q P (subSearch send ids sourceId topics p t s).2 := by
  induction topics with
  | nil => exact fun p t s hs => keeps_searchHash hsend p false hs
  | cons topic topics ih =>
    intro p t s hs
    unfold subSearch
    refine keeps_searchBranch hsend ih _ _ _ (fun found t s hs => ?_) hs
    exact keeps_searchBranch hsend ih _ _ _
      (fun found t s hs => keeps_searchHash hsend p found hs) hs

/-- What `subs__send` keeps for the leaves of the tree, the search keeps. -/
theorem keeps_searchRoot_of (hsend : ∀ p g leaf s, Q leaf → P s → P (send p g leaf s).2)
    (topics : List Bytes) {t : SubTree} {s : σ} (ht : EachSub Q t) (hs : P s) :
    P (searchRoot send ids sourceId topics t s).2.2 := by
  unfold searchRoot
  simp only
  split
  · exact hs
  · exact (keeps_subSearch hsend topics _ _ _ ⟨ht, hs⟩).2

theorem keeps_searchRoot (hsend : ∀ p g leaf s, P s → P (send p g leaf s).2) (topics : List Bytes)
    (t : SubTree) {s : σ} (hs : P s) : P (searchRoot send ids sourceId topics t s).2.2 :=
  keeps_searchRoot_of (Q := fun _ => True) (fun p g leaf s _ => hsend p g leaf s) topics
    (fun _ _ _ => ⟨fun _ _ => trivial, fun _ _ _ _ => trivial⟩) hs

end Search

/-- `retain__queue` drops expired messages and inserts others, and does nothing else. -/
theorem keeps_retainQueue {env : Env} {c : CtxId} {identifier : Nat} {P : State → Prop}
    (hexpired : ∀ branch b, P b → P (setRetained branch none b))
    (hinsert : ∀ qos retained b, P b → P (b.onClient c fun m => messageInsert env.net (midFor qos m).1
      .mdOut qos true retained (identifierProperty identifier) false (midFor qos m).2).2)
    (sub : Bytes) (subQos : Qos) {b : State} (h : P b) :
    P (retainQueue env c sub subQos identifier b).2 := by
  have hone : ∀ branch b, P b → P (retainProcess env c subQos identifier branch b).2 := by
    intro branch b h
    unfold retainProcess
    split
    · split
      · exact hexpired branch b h
      · extract_lets rc rc'
        split
        · exact h
        · split
          · exact h
          · split
            · exact h
            · split
              · exact h
              · exact hinsert _ _ b h
    · exact h
  have hfold : ∀ (nodes : List Path) (b : State), P b → P (nodes.foldl (fun b branch =>
      (retainProcess env c subQos identifier branch b).2) b) := by
    intro nodes
    induction nodes with
    | nil => exact fun b h => h
    | cons branch nodes ih => exact fun b h => ih _ (hone branch b h)
  unfold retainQueue
  split
  · exact h
  · exact hfold _ b h

/-! ## Clients -/

section Clients

variable {T : Terms} {w w' : World} {c : CtxId} {ctx ctx' : Context}

def World.at (w : World) (b : State) : World := { w with b }

theorem put_put (m m' : Machine) : (w.put c m).put c m' = w.put c m' := by
  unfold World.put
  simp only [Heap.set_set]

theorem put_get (m : Machine) : (w.put c m).b.contexts.get c = some m.ctx := Heap.get_set_self _ _ _

theorem FieldsOnly.refl (T : Terms) (c : CtxId) (ctx : Context) : FieldsOnly T c ctx ctx :=
  ⟨fun _ => ⟨rfl, rfl, rfl⟩, rfl, rfl, rfl, .inl rfl, .inl rfl, .inl rfl, fun h => h, fun h => h,
    fun h => h, rfl, fun h => h⟩

/-- A client at work, after fields of it changed. -/
theorem moves_client {R : Rules} {m' : Machine} (hget : w.b.contexts.get c = some ctx)
    (hfield : FieldsOnly T c ctx ctx') (hnet : R.net = T.env.net) (hslow : R.slow = true → T.slow c)
    (hstay : ¬ T.leaving c) (hlive : ∀ s, R.live s → w.Live s) (h : Steps R ⟨w.b.db, ctx'⟩ m') :
    Moves T w (w.put c m') := by
  induction h with
  | refl => exact .single (.field hget hfield)
  | @tail m m' _ hm ih =>
    have hmove := Move.micro (T := T) (w := w.put c m) R (put_get m) hnet hslow hstay hlive hm
    rw [put_put] at hmove
    exact ih.tail hmove

/-- Rules for a client in the middle of a function. -/
def World.rules (w : World) (T : Terms) (slow : Bool) : Rules :=
  { net := T.env.net, exact := false, slow, live := w.Live, touch := fun _ => True }

theorem ready_of_wf (hw : Wf T.conn w.b) (hget : w.b.contexts.get c = some ctx) (slow : Bool) :
    Ready (w.rules T slow) ⟨w.b.db, ctx⟩ :=
  ⟨hw.sound hget .mdOut, (nomatch ·)⟩

theorem moves_modify {f : Context → Context}
    (hf : ∀ ctx, w.b.contexts.get c = some ctx → FieldsOnly T c ctx (f ctx)) :
    Moves T w (w.at (w.b.modifyClient c f)) := by
  unfold State.modifyClient Heap.modify World.at
  split
  · exact .refl
  · rename_i ctx hget
    exact .single (.field hget (hf ctx hget))

/-- A function of the message database for a client. -/
theorem moves_onClient {f : Machine → Rc × Machine} (hstay : ¬ T.leaving c)
    (hf : ∀ ctx, w.b.contexts.get c = some ctx →
      Steps (w.rules T false) ⟨w.b.db, ctx⟩ (f ⟨w.b.db, ctx⟩).2) :
    Moves T w (w.at (w.b.onClient c f).2) := by
  unfold State.onClient World.at
  split
  · exact .refl
  · rename_i ctx hget
    exact moves_client hget (.refl T c ctx) rfl (fun h => absurd h Bool.false_ne_true) hstay
      (fun _ h => h) (hf ctx hget)

theorem midFor_eq (qos : Qos) (m : Machine) :
    ∃ lastMid, (midFor qos m).2 = { m with ctx := { m.ctx with lastMid } } := by
  unfold midFor midGenerate
  split
  · exact ⟨_, rfl⟩
  · exact ⟨m.ctx.lastMid, rfl⟩

theorem fieldsOnly_lastMid (lastMid : UInt16) : FieldsOnly T c ctx { ctx with lastMid } :=
  ⟨fun d => by cases d <;> exact ⟨rfl, rfl, rfl⟩, rfl, rfl, rfl, .inl rfl, .inl rfl, .inl rfl,
    fun h => h, fun h => h, fun h => h, rfl, fun h => h⟩

/-- A message is inserted for a subscriber under a new mid. -/
theorem moves_insert (hw : Wf T.conn w.b) (hstay : ¬ T.leaving c) {stored : MsgStore}
    (hlive : w.Live stored) (qos : Qos) (retain : Bool) (properties : List Property)
    (update : Bool) :
    Moves T w (w.at (w.b.onClient c fun m => messageInsert T.env.net (midFor qos m).1 .mdOut qos
      retain stored properties update (midFor qos m).2).2) := by
  unfold State.onClient World.at
  split
  · exact .refl
  · rename_i ctx hget
    obtain ⟨lastMid, hmid⟩ := midFor_eq qos ⟨w.b.db, ctx⟩
    have hready : Ready (w.rules T false) ⟨w.b.db, { ctx with lastMid }⟩ :=
      ⟨⟨(hw.sound hget .mdOut).nodup, (hw.sound hget .mdOut).fresh⟩,
        fun h => absurd h Bool.false_ne_true⟩
    simp only [hmid]
    exact moves_client hget (fieldsOnly_lastMid lastMid) rfl (fun h => absurd h Bool.false_ne_true)
      hstay (fun _ h => h) (steps_messageInsert trivial hready hlive _ qos retain properties update
        fun h => absurd h Bool.false_ne_true)

end Clients

/-! ## Passing a message on -/

section Passing

variable {T : Terms} {w w' : World}

theorem moves_subsSend (hw : Wf T.conn w.b) (hstay : ∀ c, ¬ T.leaving c) (topic : Bytes) (qos : Qos)
    (retain : Bool) {stored : MsgStore} (hheld : stored ∈ w.held) (leaf : SubLeaf) :
    Moves T w (w.at (subsSend T.env topic qos retain stored leaf w.b).2) := by
  unfold subsSend
  split
  · exact .refl
  · simp only
    split
    · exact .refl
    · split
      · exact moves_insert hw (hstay _) (.inl hheld) _ _ _ _
      · exact .refl

/-- A part of the state that no move is about changes. -/
theorem moves_aside {b' : State} (h : Aside w.b b') : Moves T w (w.at b') := .single (.aside h)

theorem moves_subSend (hw : Wf T.conn w.b) (hstay : ∀ c, ¬ T.leaving c) (sourceId topic : Bytes)
    (qos : Qos) (retain : Bool) {stored : MsgStore} (hheld : stored ∈ w.held)
    (splitTopics : List Bytes) :
    Moves T w (w.at (subSend T.env sourceId topic qos retain stored splitTopics w.b).2) := by
  have hsearch : Moves T w (w.at (searchRoot (fun _ _ leaf b => subsSend T.env topic qos retain
      stored leaf b) w.b.ids sourceId splitTopics w.b.subs.tree w.b).2.2) := by
    refine keeps_searchRoot (P := fun b => Moves T w (w.at b)) (fun _ _ leaf b hb => ?_) _ _ .refl
    exact hb.trans (moves_subsSend (w := w.at b) (wf_moves hw hb) hstay topic qos retain hheld leaf)
  exact hsearch.trans (moves_aside ⟨rfl, rfl, fun _ => rfl, rfl, rfl, fun _ => rfl, fun _ => rfl,
    fun _ h => .inl h⟩)

theorem retainAddHierEntry_spec (retains : Heap Path RetainHier) (p : Path) :
    (∀ q, ((retainAddHierEntry retains p).get q).bind (·.retained) =
      (retains.get q).bind (·.retained)) ∧
    (∀ f : Option MsgStore → Nat, f none = 0 →
      (retainAddHierEntry retains p).sum (fun _ h => f h.retained) =
        retains.sum fun _ h => f h.retained) ∧
    ∃ h, (retainAddHierEntry retains p).get p = some h := by
  unfold retainAddHierEntry
  cases hp : retains.get p with
  | some h => exact ⟨fun _ => rfl, fun _ _ => rfl, h, hp⟩
  | none =>
    have hp' : (retains.modify p.dropLast fun h =>
        { h with children := h.children ++ p.getLast?.toList }).get p = none := by
      rw [Heap.get_modify]
      split
      · rename_i hd
        rw [← hd, hp]
        rfl
      · exact hp
    refine ⟨fun q => ?_, fun f hf => ?_, _, Heap.get_set_self _ _ _⟩
    · rw [Heap.get_set]
      split
      · rename_i hq
        rw [hq, hp]
        rfl
      · rw [Heap.get_modify]
        split
        · rename_i hq
          rw [← hq]
          cases retains.get q <;> rfl
        · rfl
    · rw [Heap.sum_set_new _ _ hp', hf, Nat.add_zero]
      exact Heap.sum_modify (w := fun _ (h : RetainHier) => f h.retained) fun _ => rfl

theorem aside_retains {b : State} {retains : Heap Path RetainHier}
    (hret : ∀ q, (retains.get q).bind (·.retained) = (b.retains.get q).bind (·.retained))
    (hsum : ∀ f : Option MsgStore → Nat, f none = 0 →
      retains.sum (fun _ h => f h.retained) = b.retains.sum fun _ h => f h.retained) :
    Aside b { b with retains } :=
  ⟨rfl, rfl, fun _ => rfl, rfl, rfl, hret,
    fun s => hsum (fun r => if r.any (fun x : MsgStore => x.addr = s) then 1 else 0) rfl,
    fun _ h => .inl h⟩

theorem retainBranches_spec (topics : List Bytes) (p : Path) (retains : Heap Path RetainHier)
    (hp : ∃ h, retains.get p = some h) :
    (∀ q, ((retainBranches topics p retains).get q).bind (·.retained) =
      (retains.get q).bind (·.retained)) ∧
    (∀ f : Option MsgStore → Nat, f none = 0 →
      (retainBranches topics p retains).sum (fun _ h => f h.retained) =
        retains.sum fun _ h => f h.retained) ∧
    ∃ h, (retainBranches topics p retains).get (p ++ topics) = some h := by
  induction topics generalizing p retains with
  | nil => exact ⟨fun _ => rfl, fun _ _ => rfl, by simpa [retainBranches] using hp⟩
  | cons topic topics ih =>
    obtain ⟨hret, hsum, hnode⟩ := retainAddHierEntry_spec retains (p ++ [topic])
    obtain ⟨ihret, ihsum, ihnode⟩ := ih (p ++ [topic]) _ hnode
    refine ⟨fun q => (ihret q).trans (hret q), fun f hf => (ihsum f hf).trans (hsum f hf), ?_⟩
    rw [List.append_assoc] at ihnode
    exact ihnode

/-- A node gets another retained message, or none. -/
theorem moves_setRetained (node : Path) {stored : Option MsgStore}
    (hheld : ∀ s, stored = some s → s ∈ w.held) :
    Moves T w (w.at (setRetained node stored w.b)) := by
  unfold setRetained
  split
  · exact .refl
  · rename_i h hnode
    -- what is retained goes, if anything is
    have hclear : ∃ db, db = h.retained.elim w.b.db (fun old => w.b.db.msgStoreRefDec old.addr) ∧
        Moves T w (w.at { w.b with db, retains := w.b.retains.set node { h with retained := none } }) := by
      refine ⟨_, rfl, ?_⟩
      cases hr : h.retained with
      | some old => exact .single (.unretain hnode hr)
      | none =>
        refine moves_aside (aside_retains (fun q => ?_) fun f hf => ?_)
        · rw [Heap.get_set]
          split
          · rename_i hq
            rw [hq, hnode]
            exact hr.symm
          · rfl
        · have := Heap.sum_set_old (fun _ h => f h.retained) { h with retained := none } hnode
          rw [hr] at this
          exact Nat.add_right_cancel this
    obtain ⟨db, hdb, hmoves⟩ := hclear
    simp only [← hdb]
    cases stored with
    | none => exact hmoves
    | some s =>
      refine hmoves.tail ?_
      have hmove := Move.retain (T := T)
        (w := w.at { w.b with db, retains := w.b.retains.set node { h with retained := none } })
        (Heap.get_set_self _ _ _) rfl (hheld s rfl)
      simp only [World.at, Heap.set_set] at hmove
      exact hmove

theorem moves_retainStore {stored : MsgStore} (hheld : stored ∈ w.held) (splitTopics : List Bytes) :
    Moves T w (w.at (retainStore stored splitTopics w.b)) := by
  obtain ⟨hret, hsum, hnode⟩ := retainAddHierEntry_spec w.b.retains [splitTopics.headD []]
  obtain ⟨hret', hsum', -⟩ := retainBranches_spec splitTopics [splitTopics.headD []] _ hnode
  have hnew := moves_aside (T := T) (w := w) (aside_retains (fun q => (hret' q).trans (hret q))
    fun f hf => (hsum' f hf).trans (hsum f hf))
  refine hnew.trans (moves_setRetained (w := w.at _) _ fun s hs => ?_)
  split at hs
  · cases hs
    exact hheld
  · cases hs

theorem moves_subMessagesQueue (hw : Wf T.conn w.b) (hstay : ∀ c, ¬ T.leaving c)
    (sourceId topic : Bytes) (qos : Qos) (retain : Bool) {stored : MsgStore}
    (fresh : Option MsgStore) (htopic : w.fresh = fresh ∨ ∃ r, subTopicTokenise topic = .ok r)
    (hhold : ∀ b, Aside w.b b → Moves T (w.at b)
      ⟨{ b with db := b.db.msgStoreRefInc stored.addr }, stored :: w.held, fresh⟩) :
    Moves T w ⟨(subMessagesQueue T.env sourceId topic qos retain stored w.b).2, w.held, fresh⟩ := by
  have hlog : Aside w.b { w.b with passed := w.b.passed ++ [stored] } :=
    ⟨rfl, rfl, fun _ => rfl, rfl, rfl, fun _ => rfl, fun _ => rfl, fun _ h => .inl h⟩
  unfold subMessagesQueue
  cases htok : subTopicTokenise topic with
  | error rc =>
    rcases htopic with rfl | ⟨r, hr⟩
    · exact moves_aside hlog
    · exact absurd (htok.symm.trans hr) (nomatch ·)
  | ok r =>
    obtain ⟨splitTopics, share⟩ := r
    simp only
    have hheld := (moves_aside hlog).trans (hhold _ hlog)
    have hsend := hheld.trans (moves_subSend (wf_moves hw hheld) hstay sourceId topic qos retain
      List.mem_cons_self splitTopics)
    have hret : ∀ b, Moves T w ⟨b, stored :: w.held, fresh⟩ →
        Moves T w ⟨{ b with db := b.db.msgStoreRefDec stored.addr }, w.held, fresh⟩ := fun b hb => by
      have hrel := Move.release (T := T) (w := ⟨b, stored :: w.held, fresh⟩) List.mem_cons_self
      rw [List.erase_cons_head] at hrel
      exact hb.tail hrel
    split
    · exact hret _ (hsend.trans (moves_retainStore (w := ⟨_, _, _⟩) List.mem_cons_self splitTopics))
    · exact hret _ hsend

theorem tokenises {topic : Bytes} (hne : topic ≠ []) (h : topic.take 6 ≠ ascii "$share") :
    ∃ r, subTopicTokenise topic = .ok r := by
  rw [subTopicTokenise_eq hne, if_neg]
  · exact ⟨_, rfl⟩
  · intro hhead
    exact h (List.prefix_iff_eq_take.mp (prefix_of_head_levels hhead)).symm

/-- A client may not publish to a shared topic. -/
theorem aclCheckDollar_write {topic : Bytes} (h : aclCheckDollar topic .write = Rc.success) :
    topic.take 6 ≠ ascii "$share" := by
  intro hshare
  have hdollar : topic.head? = some dollar := by
    cases topic with
    | nil => exact absurd hshare (by decide)
    | cons b topic =>
      have hb := congrArg List.head? hshare
      simpa [ascii_share] using hb
  have hsys : topic.take 4 ≠ ascii "$SYS" := by
    intro hsys
    have h4 := congrArg (List.take 4) hshare
    rw [List.take_take, Nat.min_eq_left (by omega), hsys] at h4
    exact absurd h4 (by decide)
  unfold aclCheckDollar at h
  rw [if_neg (not_not.mpr hdollar), if_neg hsys, if_pos hshare, if_neg (by simp)] at h
  exact absurd h (by decide)

theorem of_aclCheck {env : Env} {ctx : Context} {topic payload : Bytes} {qos : Qos}
    {retain : Bool} (hplain : ctx.bridge = none) (hne : topic ≠ [])
    (h : mosquittoAclCheck env ctx topic payload qos retain .write = Rc.success) :
    ctx.id ≠ none ∧ ∃ r, subTopicTokenise topic = .ok r := by
  unfold mosquittoAclCheck at h
  split at h
  · exact absurd h (by decide)
  · rename_i hid
    rw [hplain] at h
    simp only [Option.isSome_none, Bool.false_eq_true, if_false] at h
    split at h
    · rename_i hdollar
      exact absurd h hdollar
    · rename_i hdollar
      exact ⟨hid, tokenises hne (aclCheckDollar_write (not_not.mp hdollar))⟩

/-- A message is stored and passed on at once. -/
theorem moves_messagesEasyQueue (hw : Wf T.conn w.b) (hstay : ∀ c, ¬ T.leaving c)
    (hfresh : w.fresh = none) (source : Option Context) (msg : NewMsg) (expiry : Nat)
    (htopic : ∃ r, subTopicTokenise msg.topic = .ok r) :
    Moves T w (w.at (messagesEasyQueue T.env source msg expiry w.b).2) := by
  unfold messagesEasyQueue
  simp only
  generalize hs : messageStore source _ expiry w.b.db = r
  obtain ⟨s, db⟩ := r
  have hstore := Move.store (T := T) (w := w) (s := s) hfresh (by cases hs; rfl)
  have hdb : db = { w.b.db with lastDbId := w.b.db.lastDbId + 1
                                msgStore := w.b.db.msgStore.set s.addr ⟨s, 0, []⟩ } := by
    cases hs
    rfl
  rw [← hdb] at hstore
  have htok : ∃ r, subTopicTokenise s.topic = .ok r := by
    cases hs
    exact htopic
  have hqueue := moves_subMessagesQueue (wf_moves hw (.single hstore)) hstay s.sourceId s.topic
    s.qos s.retain none (.inr htok) fun b hb => .single (.holdFresh rfl)
  have hall := Relation.ReflTransGen.head hstore hqueue
  rw [← hfresh] at hall
  exact hall

/-! ## Retained messages for a new subscription -/

theorem moves_retainProcess (hw : Wf T.conn w.b) (hstay : ∀ c, ¬ T.leaving c) (c : CtxId)
    (subQos : Qos) (identifier : Nat) (branch : Path) :
    Moves T w (w.at (retainProcess T.env c subQos identifier branch w.b).2) := by
  unfold retainProcess
  split
  · rename_i retained ctx hret hget
    split
    · exact moves_setRetained branch fun _ h => nomatch h
    · extract_lets rc rc'
      split
      · exact .refl
      · split
        · exact .refl
        · split
          · exact .refl
          · split
            · exact .refl
            · exact moves_insert hw (hstay c) (.inr ⟨branch, hret⟩) _ _ _ _
  · exact .refl

theorem moves_retainQueue (hw : Wf T.conn w.b) (hstay : ∀ c, ¬ T.leaving c) (c : CtxId)
    (sub : Bytes) (subQos : Qos) (identifier : Nat) :
    Moves T w (w.at (retainQueue T.env c sub subQos identifier w.b).2) := by
  have hloop : ∀ (nodes : List Path) (w : World), Wf T.conn w.b → Moves T w (w.at
      (nodes.foldl (fun b branch => (retainProcess T.env c subQos identifier branch b).2) w.b)) := by
    intro nodes
    induction nodes with
    | nil => exact fun w _ => .refl
    | cons branch nodes ih =>
      intro w hw
      have hone := moves_retainProcess hw hstay c subQos identifier branch
      exact hone.trans (ih (w.at _) (wf_moves hw hone))
  unfold retainQueue
  split
  · exact .refl
  · exact hloop _ w hw

end Passing

end AdaptiveMqtt.Broker
