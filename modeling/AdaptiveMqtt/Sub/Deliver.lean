import AdaptiveMqtt.Sub.Refine

/-!
# Trie delivery is the topic matcher

`logged send` runs `subs__send` and writes down every call with its return code.
`visited` is the list of nodes whose leaves `sub__search` serves: `Delivers` says
that a search which meets no error serves the normal leaves of exactly these nodes,
in this order (`subSearch_delivers`). A node is visited once if its path matches
the topic level by level and never otherwise (`count_visitNode`), and the
level-wise match is what `mosquitto_topic_matches_sub` computes.
-/

namespace AdaptiveMqtt.Sub

open Lib Topic

/-- A call of `subs__send`. -/
structure Sent where
  hier : Path
  shared : Option Bytes
  leaf : SubLeaf
  rc : Rc

/-- `subs__send` with its calls written down. -/
def logged {σ : Type} (send : Path → Option Bytes → SubLeaf → σ → Rc × σ) (hier : Path)
    (shared : Option Bytes) (leaf : SubLeaf) (s : σ × List Sent) : Rc × σ × List Sent :=
  let r := send hier shared leaf s.1
  (r.1, r.2, s.2 ++ [⟨hier, shared, leaf, r.1⟩])

/-- No call reported an error. -/
def Fine (log : List Sent) : Prop := ∀ e ∈ log, e.rc = Rc.success

def normals (log : List Sent) : List (Path × SubLeaf) :=
  log.filterMap fun e => if e.shared = none then some (e.hier, e.leaf) else none

theorem normals_append (l l' : List Sent) : normals (l ++ l') = normals l ++ normals l' :=
  List.filterMap_append

theorem fine_append {l l' : List Sent} : Fine (l ++ l') ↔ Fine l ∧ Fine l' := List.forall_mem_append

/-- `no_local`, or a context without an id. -/
def excluded (ids : CtxId → Option Bytes) (sourceId : Bytes) (leaf : SubLeaf) : Bool :=
  ids leaf.context = none ∨ (leaf.noLocal ∧ ids leaf.context = some sourceId)

namespace SubTree

/-- The calls `subs__process` makes for the normal leaves of a node. -/
def served (ids : CtxId → Option Bytes) (sourceId : Bytes) (t : SubTree) (p : Path) :
    List (Path × SubLeaf) :=
  ((t.leaves p none).filter fun l => !excluded ids sourceId l).map (p, ·)

/-- The trees have the same nodes and the same normal leaves. -/
def Same (t t' : SubTree) : Prop :=
  (∀ p, t'.has p ↔ t.has p) ∧ ∀ p, t'.leaves p none = t.leaves p none

theorem Same.refl (t : SubTree) : Same t t := ⟨fun _ => Iff.rfl, fun _ => rfl⟩

theorem Same.trans {t t' t'' : SubTree} (h : Same t t') (h' : Same t' t'') : Same t t'' :=
  ⟨fun p => (h'.1 p).trans (h.1 p), fun p => (h'.2 p).trans (h.2 p)⟩

theorem Same.hasChildren {t t' : SubTree} (h : Same t t') (p : Path) :
    t'.hasChildren p = t.hasChildren p := by
  rw [Bool.eq_iff_iff, hasChildren_iff, hasChildren_iff]
  exact exists_congr fun l => h.1 _

end SubTree

section Search

variable {σ : Type} (send : Path → Option Bytes → SubLeaf → σ → Rc × σ)
  (ids : CtxId → Option Bytes) (sourceId : Bytes)

/-- From state `s`, the result `r` extends the log; if no call reported an error,
the search goes on and the normal leaves served are `out`. The tree stays `t` up to
the order of the groups. -/
def Delivers (t : SubTree) (s : σ × List Sent) (out : List (Path × SubLeaf))
    (r : Rc × SubTree × σ × List Sent) : Prop :=
  SubTree.Same t r.2.1 ∧ ∃ log, r.2.2.2 = s.2 ++ log ∧
    (Fine log → (r.1 = Rc.success ∨ r.1 = Rc.noSubscribers) ∧ normals log = out)

theorem subsSharedProcess_spec (p : Path) (groups : List SubShared) (s : σ × List Sent) :
    ∃ log, (subsSharedProcess (logged send) p groups s).2.2.2 = s.2 ++ log ∧ normals log = [] ∧
      (Fine log → (subsSharedProcess (logged send) p groups s).1 = Rc.success) := by
  induction groups generalizing s with
  | nil => exact ⟨[], by simp [subsSharedProcess], rfl, fun _ => rfl⟩
  | cons g groups ih =>
    unfold subsSharedProcess
    split
    · exact ih s
    · rename_i leaf rest hsubs
      obtain ⟨log, h1, h2, h3⟩ := ih (logged send p (some g.name) leaf s).2
      refine ⟨⟨p, some g.name, leaf, (send p (some g.name) leaf s.1).1⟩ :: log, ?_, ?_, ?_⟩
      · simp only [h1]
        simp [logged]
      · simpa [normals] using h2
      · intro hf
        obtain ⟨hrc, hf⟩ := List.forall_mem_cons.mp hf
        have : (logged send p (some g.name) leaf s).1 = Rc.success := hrc
        simp only [this, h3 hf]
        rfl

theorem subsLeafLoop_spec (p : Path) (ls : List SubLeaf) (rc : Rc) (s : σ × List Sent) :
    ∃ log, (subsLeafLoop (logged send) ids p sourceId ls rc s).2.2 = s.2 ++ log ∧
      normals log = (ls.filter fun l => !excluded ids sourceId l).map (p, ·) ∧
      (Fine log → (subsLeafLoop (logged send) ids p sourceId ls rc s).1 = rc) := by
  induction ls generalizing rc s with
  | nil => exact ⟨[], by simp [subsLeafLoop], rfl, fun _ => rfl⟩
  | cons leaf ls ih =>
    unfold subsLeafLoop
    split
    · rename_i hex
      have hex' : excluded ids sourceId leaf = true := by simpa [excluded] using hex
      rw [List.filter_cons_of_neg (by simp [hex'])]
      exact ih rc s
    · rename_i hex
      have hex' : excluded ids sourceId leaf = false := by simpa [excluded] using hex
      rw [List.filter_cons_of_pos (by simp [hex'])]
      obtain ⟨log, h1, h2, h3⟩ := ih
        (if (logged send p none leaf s).1 ≠ Rc.success then 1 else rc) (logged send p none leaf s).2
      refine ⟨⟨p, none, leaf, (send p none leaf s.1).1⟩ :: log, ?_, ?_, ?_⟩
      · simp only [h1]
        simp [logged]
      · simp only [List.map_cons, ← h2]
        simp [normals]
      · intro hf
        obtain ⟨hrc, hf⟩ := List.forall_mem_cons.mp hf
        have : (logged send p none leaf s).1 = Rc.success := hrc
        rw [h3 hf, if_neg (not_not.mpr this)]

variable {t₀ t : SubTree}

theorem subsProcess_delivers (ht : SubTree.Same t₀ t) {p : Path} (hp : t₀.has p)
    (s : σ × List Sent) : Delivers t₀ s (t₀.served ids sourceId p)
      (subsProcess (logged send) ids sourceId p t s) := by
  have hpt : t.has p := (ht.1 p).mpr hp
  obtain ⟨h, hg⟩ := SubTree.has_iff.mp hpt
  obtain ⟨log, h1, h2, h3⟩ := subsSharedProcess_spec send p h.shared s
  unfold subsProcess
  simp only [hg]
  generalize subsSharedProcess (logged send) p h.shared s = r at h1 h3
  obtain ⟨log', h4, h5, h6⟩ := subsLeafLoop_spec send ids sourceId p h.subs r.1 r.2.2
  have hsame : SubTree.Same t₀ (t.setNode p { h with shared := r.2.1 }) := by
    refine ht.trans ⟨fun q => ?_, fun q => ?_⟩
    · rw [SubTree.has_set rfl]
      exact ⟨fun e => e.elim (fun e => e ▸ hpt) id, Or.inr⟩
    · rw [SubTree.leaves_set rfl]
      split
      · rename_i e
        rw [e, SubTree.leaves_of_get hg]
        rfl
      · rfl
  have hlog : (subsLeafLoop (logged send) ids p sourceId h.subs r.1 r.2.2).2.2 =
      s.2 ++ (log ++ log') := by rw [h4, h1, List.append_assoc]
  have hout : normals (log ++ log') = t₀.served ids sourceId p := by
    rw [normals_append, h2, h5, SubTree.served, ← ht.2, SubTree.leaves_of_get hg]
    rfl
  split
  · refine ⟨hsame, log ++ log', hlog, fun hf => ⟨.inl ?_, hout⟩⟩
    rw [fine_append] at hf
    exact (h6 hf.2).trans (h3 hf.1)
  · exact ⟨hsame, log ++ log', hlog, fun _ => ⟨.inr rfl, hout⟩⟩

variable {send ids sourceId}

/-- After a search step that met no error the search goes on. -/
theorem delivers_absorb {s : σ × List Sent} {out out' : List (Path × SubLeaf)}
    {r : Rc × SubTree × σ × List Sent} {found : Bool}
    {k : Bool → SubTree → σ × List Sent → Rc × SubTree × σ × List Sent}
    (hr : Delivers t₀ s out r)
    (hk : ∀ found t s, SubTree.Same t₀ t → Delivers t₀ s out' (k found t s)) :
    Delivers t₀ s (out ++ out') (absorb r found k) := by
  obtain ⟨hsame, log, hlog, hfine⟩ := hr
  have hgo : ∀ found, Delivers t₀ s (out ++ out') (k found r.2.1 r.2.2) := by
    intro found
    obtain ⟨hsame', log', hlog', hfine'⟩ := hk found r.2.1 r.2.2 hsame
    refine ⟨hsame', log ++ log', by rw [hlog', hlog, List.append_assoc], fun hf => ?_⟩
    rw [fine_append] at hf
    obtain ⟨hrc, hout'⟩ := hfine' hf.2
    exact ⟨hrc, by rw [normals_append, (hfine hf.1).2, hout']⟩
  unfold absorb
  split
  · exact hgo true
  · split
    · rename_i h0 h1
      refine ⟨hsame, log, hlog, fun hf => ?_⟩
      rcases (hfine hf).1 with h | h
      · exact absurd h h0
      · exact absurd h h1
    · exact hgo found

end Search

/-! ## The nodes a search visits -/

instance (t : SubTree) (p : Path) : Decidable (t.has p) := inferInstanceAs (Decidable (_ = true))

/-- The `#` child, unless it has children of its own. -/
def visitHash (t : SubTree) (p : Path) : List Path :=
  if t.has (p ++ [[hash]]) ∧ t.hasChildren (p ++ [[hash]]) = false then [p ++ [[hash]]] else []

/-- The nodes at or below `p` served for the remaining levels of a topic. -/
def visitNode (t : SubTree) : List Bytes → Path → List Path
  | [], p => visitHash t p ++ [p]
  | x :: xs, p =>
    (if t.has (p ++ [x]) then visitNode t xs (p ++ [x]) else []) ++
      ((if t.has (p ++ [[plus]]) then visitNode t xs (p ++ [[plus]]) else []) ++ visitHash t p)

/-- The nodes a call of `sub__search` serves: at the end of the topic the node
itself is served by the caller. -/
def visitBelow (t : SubTree) : List Bytes → Path → List Path
  | [], p => visitHash t p
  | x :: xs, p => visitNode t (x :: xs) p

theorem visitNode_eq (t : SubTree) (xs : List Bytes) (p : Path) :
    visitNode t xs p = visitBelow t xs p ++ if xs = [] then [p] else [] := by
  cases xs with
  | nil => rfl
  | cons x xs => simp [visitBelow]

section Visit

variable {σ : Type} (send : Path → Option Bytes → SubLeaf → σ → Rc × σ)
  (ids : CtxId → Option Bytes) (sourceId : Bytes) {t₀ t : SubTree}

theorem searchHash_delivers (ht : SubTree.Same t₀ t) (p : Path) (found : Bool)
    (s : σ × List Sent) :
    Delivers t₀ s ((visitHash t₀ p).flatMap (t₀.served ids sourceId))
      (searchHash (logged send) ids sourceId p found t s) := by
  have hdone : ∀ found t s, SubTree.Same t₀ t → Delivers t₀ s []
      (if found = true then (Rc.success, t, s) else (Rc.noSubscribers, t, s) :
        Rc × SubTree × σ × List Sent) := by
    intro found t s hs
    split
    · exact ⟨hs, [], by simp, fun _ => ⟨.inl rfl, rfl⟩⟩
    · exact ⟨hs, [], by simp, fun _ => ⟨.inr rfl, rfl⟩⟩
  have hcond : ((t.nodes.get (p ++ [[hash]])).isSome ∧ t.hasChildren (p ++ [[hash]]) = false) ↔
      (t₀.has (p ++ [[hash]]) ∧ t₀.hasChildren (p ++ [[hash]]) = false) := by
    rw [ht.hasChildren]
    exact and_congr_left fun _ => ht.1 _
  unfold searchHash visitHash
  simp only [hcond]
  split
  · rename_i h
    rw [List.flatMap_singleton, ← List.append_nil (t₀.served ids sourceId _)]
    exact delivers_absorb (subsProcess_delivers send ids sourceId ht h.1 s) hdone
  · exact hdone found t s ht

theorem searchBranch_delivers (ht : SubTree.Same t₀ t) {xs : List Bytes} {p : Path}
    {out : List (Path × SubLeaf)} {found : Bool} {s : σ × List Sent}
    {search : Path → SubTree → σ × List Sent → Rc × SubTree × σ × List Sent}
    {k : Bool → SubTree → σ × List Sent → Rc × SubTree × σ × List Sent}
    (hsearch : Delivers t₀ s ((visitBelow t₀ xs p).flatMap (t₀.served ids sourceId))
      (search p t s))
    (hk : ∀ found t s, SubTree.Same t₀ t → Delivers t₀ s out (k found t s)) :
    Delivers t₀ s ((if t₀.has p then visitNode t₀ xs p else []).flatMap
      (t₀.served ids sourceId) ++ out)
      (searchBranch (logged send) ids sourceId search xs.isEmpty p found t s k) := by
  unfold searchBranch
  cases hp : t.nodes.get p with
  | none =>
    have : ¬ t₀.has p := fun h => Option.not_isSome_iff_eq_none.mpr hp ((ht.1 p).mpr h)
    rw [if_neg this]
    exact hk found t s ht
  | some h =>
    have hp0 : t₀.has p := (ht.1 p).mp (SubTree.has_iff.mpr ⟨h, hp⟩)
    rw [if_pos hp0, visitNode_eq, List.flatMap_append, List.append_assoc]
    refine delivers_absorb hsearch fun found t s ht => ?_
    cases xs with
    | nil =>
      rw [if_pos rfl, List.flatMap_singleton]
      exact delivers_absorb (subsProcess_delivers send ids sourceId ht hp0 s) hk
    | cons x xs => exact hk found t s ht

/-- **A search that meets no error serves the nodes it visits.** -/
theorem subSearch_delivers (topics : List Bytes) : ∀ {t : SubTree} (p : Path)
    (s : σ × List Sent), SubTree.Same t₀ t →
    Delivers t₀ s ((visitBelow t₀ topics p).flatMap (t₀.served ids sourceId))
      (subSearch (logged send) ids sourceId topics p t s) := by
  induction topics with
  | nil =>
    intro t p s ht
    exact searchHash_delivers send ids sourceId ht p false s
  | cons x xs ih =>
    intro t p s ht
    rw [visitBelow, visitNode, List.flatMap_append, List.flatMap_append]
    unfold subSearch
    refine searchBranch_delivers send ids sourceId ht (ih _ _ ht) fun found t s ht => ?_
    refine searchBranch_delivers send ids sourceId ht (ih _ _ ht) fun found t s ht => ?_
    exact searchHash_delivers send ids sourceId ht p found s

end Visit

/-! ## Visited once or never -/

section Count

variable {t : SubTree}

theorem prefix_of_mem_visitHash {p q : Path} (h : q ∈ visitHash t p) : q = p ++ [[hash]] := by
  unfold visitHash at h
  split at h
  · exact List.mem_singleton.mp h
  · cases h

theorem prefix_of_mem_visitNode {xs : List Bytes} {p q : Path} (h : q ∈ visitNode t xs p) :
    p <+: q := by
  induction xs generalizing p with
  | nil =>
    rcases List.mem_append.mp h with h | h
    · exact ⟨_, (prefix_of_mem_visitHash h).symm⟩
    · exact ⟨[], by simpa using (List.mem_singleton.mp h).symm⟩
  | cons x xs ih =>
    rw [visitNode, List.mem_append, List.mem_append] at h
    rcases h with h | h | h
    · split at h
      · exact (List.prefix_append p [x]).trans (ih h)
      · cases h
    · split at h
      · exact (List.prefix_append p [[plus]]).trans (ih h)
      · cases h
    · exact ⟨_, (prefix_of_mem_visitHash h).symm⟩

/-- Nothing below another child is visited from a child. -/
theorem count_branch_ne {xs : List Bytes} {p r : Path} {x f : Bytes} (h : f ≠ x) :
    (if t.has (p ++ [x]) then visitNode t xs (p ++ [x]) else []).count (p ++ f :: r) = 0 := by
  rw [List.count_eq_zero]
  intro hm
  split at hm
  · obtain ⟨u, hu⟩ := prefix_of_mem_visitNode hm
    rw [List.append_assoc, List.append_cancel_left_eq, List.singleton_append,
      List.cons_eq_cons] at hu
    exact h hu.1.symm
  · cases hm

theorem count_branch_self {xs : List Bytes} {p : Path} {x : Bytes} :
    (if t.has (p ++ [x]) then visitNode t xs (p ++ [x]) else []).count p = 0 := by
  rw [List.count_eq_zero]
  intro hm
  split at hm
  · have := (prefix_of_mem_visitNode hm).length_le
    simp at this
  · cases hm

theorem count_visitHash_ne {p q : Path} (h : q ≠ p ++ [[hash]]) : (visitHash t p).count q = 0 := by
  rw [List.count_eq_zero]
  exact fun hm => h (prefix_of_mem_visitHash hm)

/-- **A node is visited once if its path matches, and never otherwise.** `#` has no
node below it, and the levels of the topic are no wildcards. -/
theorem count_visitNode (hok : t.Ok) (hhash : ∀ p r, t.has (p ++ [hash] :: r) → r = [])
    {xs : List Bytes} (hxs : ∀ x ∈ xs, x ≠ [plus] ∧ x ≠ [hash]) : ∀ {p r : Path}, p ≠ [] →
    t.has (p ++ r) → (visitNode t xs p).count (p ++ r) = if levelMatch r xs then 1 else 0 := by
  have hvh : ∀ {p : Path}, t.has (p ++ [[hash]]) → (visitHash t p).count (p ++ [[hash]]) = 1 := by
    intro p hp
    unfold visitHash
    rw [if_pos, List.count_singleton_self]
    refine ⟨hp, ?_⟩
    rw [← Bool.not_eq_true, SubTree.hasChildren_iff]
    rintro ⟨l, hl⟩
    rw [List.append_assoc] at hl
    exact absurd (hhash p [l] hl) (by simp)
  induction xs with
  | nil =>
    intro p r hp0 hr
    rw [visitNode, List.count_append]
    rcases r with _ | ⟨f, r⟩
    · rw [List.append_nil, count_visitHash_ne (by simp), List.count_singleton_self]
      rfl
    · rw [List.count_singleton, if_neg (by simp)]
      by_cases hf : f = [hash]
      · subst hf
        obtain rfl := hhash p r hr
        rw [hvh hr, levelMatch_hash]
        rfl
      · rw [count_visitHash_ne, levelMatch_cons_nil hf]
        · rfl
        · simp [hf]
  | cons x xs ih =>
    intro p r hp0 hr
    have hx := hxs x List.mem_cons_self
    have ih := @ih fun y hy => hxs y (List.mem_cons_of_mem x hy)
    have hplus : ([plus] : Bytes) ≠ [hash] := by decide
    rw [visitNode, List.count_append, List.count_append]
    rcases r with _ | ⟨f, r⟩
    · rw [List.append_nil, count_branch_self, count_branch_self, count_visitHash_ne (by simp)]
      rfl
    · have hassoc : p ++ f :: r = p ++ [f] ++ r := by simp
      have hfp : t.has (p ++ [f]) := by
        rw [hassoc] at hr
        exact hok.has_above (by simp) hr
      by_cases hf : f = [hash]
      · subst hf
        obtain rfl := hhash p r hr
        rw [count_branch_ne hx.2.symm, count_branch_ne hplus.symm, hvh hr, levelMatch_hash]
        rfl
      · rw [count_visitHash_ne (by simp [hf]), levelMatch_cons hf]
        by_cases hfx : f = x
        · subst hfx
          rw [count_branch_ne hx.1, if_pos hfp, hassoc, ih (by simp) (hassoc ▸ hr)]
          simp
        · rw [count_branch_ne hfx]
          by_cases hfp' : f = [plus]
          · subst hfp'
            rw [if_pos hfp, hassoc, ih (by simp) (hassoc ▸ hr)]
            simp
          · rw [count_branch_ne hfp']
            simp [hfx, hfp']

end Count

/-! ## Trees of checked filters -/

/-- The nodes below the roots lie on the paths of checked filters, and the leaves
at their ends. -/
structure Named (t : SubTree) : Prop where
  ok : t.Ok
  node : ∀ p, t.has p → p.length ≤ 1 ∨ ∃ sub topics share,
    mosquittoSubTopicCheck sub = Rc.success ∧ subTopicTokenise sub = .ok (topics, share) ∧
      p <+: nodeOf topics
  leaf : ∀ p share, t.leaves p share ≠ [] → ∃ sub topics,
    mosquittoSubTopicCheck sub = Rc.success ∧ subTopicTokenise sub = .ok (topics, share) ∧
      p = nodeOf topics

section Named

variable {ids : CtxId → Option Bytes} {protocol : CtxId → Protocol} {w : SubWorld}

theorem named_init : Named SubTree.dbOpen := by
  obtain ⟨hok, hhas, hleaves⟩ := SubTree.dbOpen_spec
  refine ⟨hok, fun p hp => .inl ?_, fun p share h => absurd (hleaves p share) h⟩
  rcases (hhas p).mp hp with rfl | rfl <;> simp

theorem named_step (hn : Named w.tree) {op : SubOp} (hv : op.Valid) :
    Named (w.step ids protocol op).tree := by
  cases op with
  | add c sub qos identifier options =>
    cases htok : subTopicTokenise sub with
    | error rc =>
      rw [(step_refused ids protocol c htok).1]
      exact hn
    | ok r =>
      obtain ⟨topics, share⟩ := r
      obtain ⟨hok, hhas, hleaves, -⟩ := step_add ids protocol c qos identifier options
        hn.ok htok (hv.length_le htok)
      refine ⟨hok, fun p hp => ?_, fun p s hl => ?_⟩
      · rcases (hhas p).mp hp with hp | ⟨-, hp⟩
        · exact hn.node p hp
        · exact .inr ⟨sub, topics, share, hv, htok, hp⟩
      · rw [hleaves] at hl
        split at hl
        · rename_i h
          exact ⟨sub, topics, hv, h.2 ▸ htok, h.1⟩
        · exact hn.leaf p s hl
  | remove c sub =>
    cases htok : subTopicTokenise sub with
    | error rc =>
      rw [(step_refused ids protocol c htok).2]
      exact hn
    | ok r =>
      obtain ⟨topics, share⟩ := r
      obtain ⟨hok, hhas, hleaves, -, -⟩ := step_remove ids protocol c hn.ok htok
      refine ⟨hok, fun p hp => hn.node p (hhas p hp), fun p s hl => ?_⟩
      rw [hleaves] at hl
      split at hl
      · rename_i h
        exact ⟨sub, topics, hv, h.2 ▸ htok, h.1⟩
      · exact hn.leaf p s hl

theorem named_run {ops : List SubOp} (hv : ∀ op ∈ ops, op.Valid) :
    Named (SubWorld.run ids protocol ops).tree := by
  induction ops using List.reverseRecOn with
  | nil => exact named_init
  | append_singleton ops op ih =>
    simp only [SubWorld.run, List.foldl_append, List.foldl_cons, List.foldl_nil]
    refine named_step (ih fun op h => hv op ?_) (hv op ?_)
    · exact List.mem_append_left _ h
    · exact List.mem_append_right _ (List.mem_singleton.mpr rfl)

/-- No node hangs below `#`. -/
theorem Named.hash_last {t : SubTree} (hn : Named t) (p r : Path) (h : t.has (p ++ [hash] :: r)) :
    r = [] := by
  rcases hn.node _ h with hlen | ⟨sub, topics, share, hs, htok, u, hu⟩
  · rw [List.length_append, List.length_cons] at hlen
    exact List.length_eq_zero_iff.mp (by omega)
  · unfold nodeOf at hu
    rw [List.append_assoc, List.cons_append] at hu
    rcases p with _ | ⟨a, p⟩
    · -- a root is the first token, and that is not `#`
      obtain ⟨h1, h2⟩ := List.cons_eq_cons.mp hu
      cases topics with
      | nil => exact (List.append_eq_nil_iff.mp h2).1
      | cons x topics =>
        obtain rfl : [hash] = x := h1
        have hcons : [hash] :: topics = [] ++ [hash] :: topics := rfl
        exact absurd rfl (hash_last_topics hs htok hcons).1
    · have htopics : topics = p ++ [hash] :: (r ++ u) := (List.cons_eq_cons.mp hu).2.symm
      exact (List.append_eq_nil_iff.mp (hash_last_topics hs htok htopics).2).1

end Named

/-! ## Delivery -/

theorem count_flatMap_served (ids : CtxId → Option Bytes) (sourceId : Bytes) (t : SubTree)
    (ps : List Path) (p : Path) (leaf : SubLeaf) :
    (ps.flatMap (t.served ids sourceId)).count (p, leaf) =
      ps.count p * (t.served ids sourceId p).count (p, leaf) := by
  induction ps with
  | nil => simp
  | cons q ps ih =>
    rw [List.flatMap_cons, List.count_append, ih, List.count_cons]
    by_cases hq : q = p
    · subst hq
      simp [Nat.add_mul, Nat.add_comm]
    · have hzero : (t.served ids sourceId q).count (p, leaf) = 0 := by
        rw [List.count_eq_zero]
        intro hm
        obtain ⟨l, -, e⟩ := List.mem_map.mp hm
        exact hq (Prod.mk.inj e).1
      simp [hzero, hq]

theorem count_served {ids : CtxId → Option Bytes} {sourceId : Bytes} {t : SubTree} (hok : t.Ok)
    {p : Path} {leaf : SubLeaf} (hl : leaf ∈ t.leaves p none) :
    (t.served ids sourceId p).count (p, leaf) =
      if excluded ids sourceId leaf then 0 else 1 := by
  have hnd : (t.served ids sourceId p).Nodup := by
    refine List.Nodup.map (fun a b e => (Prod.mk.inj e).2) (List.Nodup.filter _ ?_)
    exact List.Nodup.of_map _ (hok.once p none)
  have hmem : (p, leaf) ∈ t.served ids sourceId p ↔ excluded ids sourceId leaf = false := by
    simp [SubTree.served, hl]
  by_cases hex : excluded ids sourceId leaf = true
  · rw [if_pos hex, List.count_eq_zero, hmem, hex]
    simp
  · rw [if_neg hex, List.count_eq_one_of_mem hnd]
    simpa [hmem] using hex

/-- The calls of a search for the leaves of one node: they are made if the node
hangs below the root of the topic and its levels match. -/
theorem count_searchRoot {σ : Type} (send : Path → Option Bytes → SubLeaf → σ → Rc × σ)
    (ids : CtxId → Option Bytes) (sourceId : Bytes) {t : SubTree} (hn : Named t) (s : σ)
    {topics split : List Bytes} (leaf : SubLeaf) (hsplit : split ≠ [])
    (hwild : ∀ x ∈ split, x ≠ [plus] ∧ x ≠ [hash])
    (hnode : t.has (nodeOf topics))
    (hfine : Fine (searchRoot (logged send) ids sourceId split t (s, [])).2.2.2) :
    (normals (searchRoot (logged send) ids sourceId split t (s, [])).2.2.2).count
        (nodeOf topics, leaf) =
      (if topics.headD [] = split.headD [] ∧ levelMatch topics split then 1 else 0) *
        (t.served ids sourceId (nodeOf topics)).count (nodeOf topics, leaf) := by
  unfold searchRoot at hfine ⊢
  cases hroot : t.nodes.get [split.headD []] with
  | none =>
    simp only [hroot]
    rw [if_neg]
    · simp [normals]
    · rintro ⟨he, -⟩
      have hup : t.has [topics.headD []] := hn.ok.has_above (List.cons_ne_nil _ []) hnode
      rw [he] at hup
      exact Option.not_isSome_iff_eq_none.mpr hroot hup
  | some h =>
    simp only [hroot] at hfine ⊢
    obtain ⟨-, log, hlog, hserved⟩ := subSearch_delivers send ids sourceId split
      [split.headD []] (s, []) (SubTree.Same.refl t)
    rw [List.nil_append] at hlog
    rw [hlog] at hfine
    have hbelow : visitBelow t split [split.headD []] = visitNode t split [split.headD []] := by
      cases split with
      | nil => exact absurd rfl hsplit
      | cons x xs => rfl
    rw [hlog, (hserved hfine).2, count_flatMap_served, hbelow]
    congr 1
    by_cases he : topics.headD [] = split.headD []
    · have hcount := count_visitNode hn.ok hn.hash_last hwild
        (List.cons_ne_nil (topics.headD []) []) hnode
      rw [he] at hcount
      rw [nodeOf, he]
      simp only [true_and]
      exact hcount
    · rw [if_neg fun h => he h.1, List.count_eq_zero]
      intro hm
      exact he (List.cons_prefix_cons.mp (prefix_of_mem_visitNode hm)).1.symm

/-- **Trie delivery is the topic matcher.** For every history of `sub__add` and
`sub__remove` with checked filters and every checked topic that does not start
with `$share`: if no call of `subs__send` reports an error, a normal leaf is served
once if `mosquitto_topic_matches_sub` matches its filter, and never otherwise,
leaves excluded by `no_local` aside. -/
theorem search_serves_matching {σ : Type} (send : Path → Option Bytes → SubLeaf → σ → Rc × σ)
    (ids : CtxId → Option Bytes) (protocol : CtxId → Protocol) (ops : List SubOp)
    (hv : ∀ op ∈ ops, op.Valid) (sourceId topic : Bytes)
    (htopic : mosquittoPubTopicCheck topic = Rc.success) (hshare : ¬ ascii "$share" <+: topic)
    (s : σ) :
    let t := (SubWorld.run ids protocol ops).tree
    let log := (searchTopic (logged send) ids sourceId topic t (s, [])).2.2.2
    (∀ e ∈ log, e.rc = Rc.success) →
    ∀ p leaf, t.IsLeaf p none leaf → ∃ filter,
      mosquittoSubTopicCheck filter = Rc.success ∧ subTopicTokenise filter = .ok (p.tail, none) ∧
      (normals log).count (p, leaf) = if (mosquittoTopicMatchesSub filter topic).2 = true ∧
        ¬ excluded ids sourceId leaf = true then 1 else 0 := by
  intro t log hfine p leaf hleaf
  have hn : Named t := named_run hv
  have hl : leaf ∈ t.leaves p none := (SubTree.isLeaf_iff hn.ok).mp hleaf
  obtain ⟨filter, topics, hs, htok, rfl⟩ := hn.leaf p none (List.ne_nil_of_mem hl)
  refine ⟨filter, hs, htok, ?_⟩
  by_cases hempty : topic = []
  · have hlog : log = [] := by
      show (searchTopic (logged send) ids sourceId topic t (s, [])).2.2.2 = []
      rw [hempty]
      rfl
    rw [hlog, hempty]
    simp [normals, mosquittoTopicMatchesSub]
  · obtain ⟨hfne, rfl⟩ := tokens_of_not_shared htok
    have htokt : subTopicTokenise topic = .ok (tokens topic, none) := by
      rw [subTopicTokenise_eq hempty, if_neg fun h => hshare (prefix_of_head_levels h)]
    have hlog : log = (searchRoot (logged send) ids sourceId (tokens topic) t (s, [])).2.2.2 := by
      show (searchTopic (logged send) ids sourceId topic t (s, [])).2.2.2 = _
      unfold searchTopic
      rw [htokt]
    have hcount := count_searchRoot send ids sourceId hn s leaf (tokens_ne_nil topic)
      (fun x hx => not_wildcard_of_mem_tokens htopic hx)
      (SubTree.has_of_leaves (List.ne_nil_of_mem hl)) (hlog ▸ hfine)
    rw [← hlog] at hcount
    rw [hcount, count_served hn.ok hl, mosquittoTopicMatchesSub_eq hfne hempty hs htopic]
    simp only [tokens_match, Bool.and_eq_true, decide_eq_true_eq]
    by_cases hm : dollarAgree filter topic ∧ levelMatch (levels filter) (levels topic) = true <;>
      by_cases hex : excluded ids sourceId leaf = true <;> simp [hm, hex]

/-- `a/b` reaches a subscriber of `a/+` once, beside one of `#` and one of `a`. -/
theorem search_serves_matching_plus :
    let ops := [SubOp.add 0 (ascii "a/+") .q1 0 0, .add 1 (ascii "#") .q0 0 0,
      .add 0 (ascii "a") .q0 0 0]
    let t := (SubWorld.run (fun c => some (List.replicate c 0)) (fun _ => .mqtt5) ops).tree
    let log := (searchTopic (logged fun _ _ _ (s : Unit) => (Rc.success, s))
      (fun c => some (List.replicate c 0)) (ascii "pub") (ascii "a/b") t ((), [])).2.2.2
    (normals log).count ([[], [], ascii "a", [plus]], newLeaf 0 .q1 0 0) = 1 ∧
    ∃ filter, mosquittoSubTopicCheck filter = Rc.success ∧
      subTopicTokenise filter = .ok ([[], ascii "a", [plus]], none) ∧
      (normals log).count ([[], [], ascii "a", [plus]], newLeaf 0 .q1 0 0) =
        if (mosquittoTopicMatchesSub filter (ascii "a/b")).2 = true ∧
          ¬ excluded (fun c => some (List.replicate c 0)) (ascii "pub") (newLeaf 0 .q1 0 0) = true
        then 1 else 0 :=
  ⟨by decide, search_serves_matching (fun _ _ _ (s : Unit) => (Rc.success, s))
    (fun c => some (List.replicate c 0)) (fun _ => .mqtt5)
    [SubOp.add 0 (ascii "a/+") .q1 0 0, .add 1 (ascii "#") .q0 0 0, .add 0 (ascii "a") .q0 0 0]
    (by decide) (ascii "pub") (ascii "a/b") (by decide) (by decide) () (by decide)
    [[], [], ascii "a", [plus]] (newLeaf 0 .q1 0 0)
    ⟨⟨[newLeaf 0 .q1 0 0], []⟩, by decide, List.mem_cons_self⟩⟩

end AdaptiveMqtt.Sub
