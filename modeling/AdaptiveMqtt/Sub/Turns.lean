import AdaptiveMqtt.Sub.Deliver

/-!
# Shared groups take turns

`subs__shared_process` serves the head of every group of a node and moves it to the back. A
search is a sequence of calls of `subs__process`, never two for the same node (`Walks`), so a
publish that reaches a node serves one member of each of its groups. What a group has served
and what it has not are the two halves of the group as it was (`Served`), whatever the results
of `subs__send` and the other subscriptions are.
-/

namespace AdaptiveMqtt.Sub

open Lib Topic

/-! ## One turn -/

/-- The head goes to the back. -/
def turn : List SubLeaf → List SubLeaf
  | [] => []
  | leaf :: rest => rest ++ [leaf]

def SubShared.turned (g : SubShared) : SubShared := { g with subs := turn g.subs }

theorem perm_turn (ls : List SubLeaf) : (turn ls).Perm ls := by
  cases ls with
  | nil => exact List.Perm.refl _
  | cons leaf rest => exact List.perm_append_singleton leaf rest

theorem turn_ne_nil {ls : List SubLeaf} (h : ls ≠ []) : turn ls ≠ [] := by
  intro hnil
  rw [← List.length_eq_zero_iff, (perm_turn ls).length_eq] at hnil
  exact h (List.length_eq_zero_iff.mp hnil)

def groupCalls (p : Path) (name : Bytes) (log : List Sent) : List SubLeaf :=
  log.filterMap fun e => if e.hier = p ∧ e.shared = some name then some e.leaf else none

theorem groupCalls_cons (p : Path) (name : Bytes) (e : Sent) (log : List Sent) :
    groupCalls p name (e :: log) =
      (if e.hier = p ∧ e.shared = some name then [e.leaf] else []) ++ groupCalls p name log := by
  unfold groupCalls
  rw [List.filterMap_cons]
  split_ifs <;> rfl

theorem groupCalls_append (p : Path) (name : Bytes) (l l' : List Sent) :
    groupCalls p name (l ++ l') = groupCalls p name l ++ groupCalls p name l' :=
  List.filterMap_append

theorem groupCalls_elsewhere {p : Path} {name : Bytes} {log : List Sent}
    (h : ∀ e ∈ log, ¬ (e.hier = p ∧ e.shared = some name)) : groupCalls p name log = [] :=
  List.filterMap_eq_nil_iff.mpr fun e he => if_neg (h e he)

theorem groupLeaves_turned (groups : List SubShared) (name : Bytes) :
    SubHier.groupLeaves (groups.map SubShared.turned) name =
      turn (SubHier.groupLeaves groups name) := by
  induction groups with
  | nil => rfl
  | cons g groups ih =>
    rw [List.map_cons, SubHier.groupLeaves_cons, SubHier.groupLeaves_cons, ih]
    exact (apply_ite turn _ _ _).symm

/-- A node whose groups have made a turn. -/
def SubHier.turned (h : SubHier) : SubHier := { h with shared := h.shared.map SubShared.turned }

theorem SubHier.ok_turned {h : SubHier} (hok : h.Ok) : h.turned.Ok := by
  refine ⟨?_, fun g hg => ?_⟩
  · show ((h.shared.map SubShared.turned).map (·.name)).Nodup
    rw [List.map_map]
    exact hok.names
  · obtain ⟨g, hmem, rfl⟩ := List.mem_map.mp hg
    exact turn_ne_nil (hok.full g hmem)

theorem SubHier.count_turned (h : SubHier) (b : Bool) : h.turned.count b = h.count b := by
  cases b with
  | false => rfl
  | true =>
    show ((h.shared.map SubShared.turned).map (·.subs.length)).sum = _
    rw [List.map_map]
    exact congrArg List.sum (List.map_congr_left fun g _ => (perm_turn g.subs).length_eq)

theorem SubHier.leaves_turned (h : SubHier) (share : Option Bytes) :
    h.turned.leaves share = if share = none then h.leaves share else turn (h.leaves share) := by
  cases share with
  | none => rfl
  | some name =>
    rw [if_neg (Option.some_ne_none name), SubHier.leaves_some, SubHier.leaves_some]
    exact groupLeaves_turned h.shared name

section Process

variable {σ : Type} (send : Path → Option Bytes → SubLeaf → σ → Rc × σ)
  (ids : CtxId → Option Bytes) (sourceId : Bytes)

theorem subsSharedProcess_groups (p : Path) (groups : List SubShared) (s : σ) :
    (subsSharedProcess send p groups s).2.1 = groups.map SubShared.turned := by
  induction groups generalizing s with
  | nil => rfl
  | cons g groups ih =>
    obtain ⟨name, subs⟩ := g
    cases subs with
    | nil =>
      rw [subsSharedProcess, List.map_cons]
      exact congrArg _ (ih s)
    | cons leaf rest =>
      rw [subsSharedProcess, List.map_cons]
      exact congrArg _ (ih _)

/-- Every group that has members gets one call, for its head. -/
theorem subsSharedProcess_calls (p : Path) (name : Bytes) (groups : List SubShared)
    (hnd : (groups.map (·.name)).Nodup) (s : σ × List Sent) :
    ∃ log, (subsSharedProcess (logged send) p groups s).2.2.2 = s.2 ++ log ∧
      (∀ e ∈ log, e.hier = p) ∧
      groupCalls p name log = (SubHier.groupLeaves groups name).head?.toList := by
  induction groups generalizing s with
  | nil => exact ⟨[], (List.append_nil _).symm, fun e he => (nomatch he), rfl⟩
  | cons g groups ih =>
    obtain ⟨hg, hnd⟩ := List.nodup_cons.mp hnd
    rw [SubHier.groupLeaves_cons]
    unfold subsSharedProcess
    split
    · rename_i hsubs
      obtain ⟨log, hlog, hhier, hcalls⟩ := ih hnd s
      refine ⟨log, hlog, hhier, ?_⟩
      rw [hcalls]
      split
      · rename_i hname
        rw [hsubs, SubHier.groupLeaves_of_notMem (hname ▸ hg)]
      · rfl
    · rename_i leaf rest hsubs
      obtain ⟨log, hlog, hhier, hcalls⟩ := ih hnd (logged send p (some g.name) leaf s).2
      refine ⟨⟨p, some g.name, leaf, (send p (some g.name) leaf s.1).1⟩ :: log, ?_,
        List.forall_mem_cons.mpr ⟨rfl, hhier⟩, ?_⟩
      · show (subsSharedProcess (logged send) p groups _).2.2.2 = _
        rw [hlog]
        exact List.append_assoc _ _ _
      · rw [groupCalls_cons, hcalls]
        by_cases hname : g.name = name
        · -- the other groups have other names
          rw [if_pos ⟨rfl, congrArg some hname⟩, if_pos hname, hsubs,
            SubHier.groupLeaves_of_notMem (hname ▸ hg)]
          rfl
        · rw [if_neg fun h => hname (Option.some.inj h.2), if_neg hname]
          rfl

theorem subsLeafLoop_calls (p : Path) (ls : List SubLeaf) (rc : Rc) (s : σ × List Sent) :
    ∃ log, (subsLeafLoop (logged send) ids p sourceId ls rc s).2.2 = s.2 ++ log ∧
      ∀ e ∈ log, e.hier = p ∧ e.shared = none := by
  induction ls generalizing rc s with
  | nil => exact ⟨[], (List.append_nil _).symm, fun e he => nomatch he⟩
  | cons leaf ls ih =>
    unfold subsLeafLoop
    split
    · exact ih rc s
    · obtain ⟨log, hlog, hall⟩ := ih
        (if (logged send p none leaf s).1 ≠ Rc.success then 1 else rc) (logged send p none leaf s).2
      refine ⟨⟨p, none, leaf, (send p none leaf s.1).1⟩ :: log, ?_, ?_⟩
      · rw [hlog]
        exact List.append_assoc _ _ _
      · exact List.forall_mem_cons.mpr ⟨⟨rfl, rfl⟩, hall⟩

variable {t : SubTree} {p q : Path}

/-- What one call of `subs__process` does to a group: if it is for the group's node, the head is
served and goes to the back. -/
theorem process_calls (name : Bytes) (hok : t.Ok) (hq : t.has q) (s : σ × List Sent) :
    ∃ log, (subsProcess (logged send) ids sourceId q t s).2.2.2 = s.2 ++ log ∧
      (∀ e ∈ log, e.hier = q) ∧
      groupCalls q name log = (t.leaves q (some name)).head?.toList := by
  obtain ⟨h, hg⟩ := SubTree.has_iff.mp hq
  obtain ⟨log, hlog, hhier, hcalls⟩ := subsSharedProcess_calls send q name h.shared
    (hok.node q h hg).names s
  unfold subsProcess
  simp only [hg]
  obtain ⟨log', hlog', hnone⟩ := subsLeafLoop_calls send ids sourceId q h.subs
    (subsSharedProcess (logged send) q h.shared s).1
    (subsSharedProcess (logged send) q h.shared s).2.2
  have hresult : (subsLeafLoop (logged send) ids q sourceId h.subs
      (subsSharedProcess (logged send) q h.shared s).1
      (subsSharedProcess (logged send) q h.shared s).2.2).2.2 = s.2 ++ (log ++ log') := by
    rw [hlog', hlog, List.append_assoc]
  refine ⟨log ++ log', by split <;> exact hresult, ?_, ?_⟩
  · exact List.forall_mem_append.mpr ⟨hhier, fun e he => (hnone e he).1⟩
  · have hrest : groupCalls q name log' = [] := groupCalls_elsewhere fun e he hc => by
      rw [(hnone e he).2] at hc
      cases hc.2
    rw [groupCalls_append, hcalls, hrest, List.append_nil, SubTree.leaves_of_get hg,
      SubHier.leaves_some]

theorem process_tree {h : SubHier} (hg : t.nodes.get q = some h) (s : σ) :
    (subsProcess send ids sourceId q t s).2.1 = t.setNode q h.turned := by
  unfold subsProcess
  simp only [hg, subsSharedProcess_groups]
  split <;> rfl

theorem process_has (hq : t.has q) (s : σ) (p : Path) :
    (subsProcess send ids sourceId q t s).2.1.has p ↔ t.has p := by
  obtain ⟨h, hg⟩ := SubTree.has_iff.mp hq
  rw [process_tree send ids sourceId hg, SubTree.has_set rfl]
  refine ⟨fun hp => ?_, Or.inr⟩
  rcases hp with rfl | hp
  · exact hq
  · exact hp

theorem process_leaves (hq : t.has q) (s : σ) (p : Path) (share : Option Bytes) :
    (subsProcess send ids sourceId q t s).2.1.leaves p share =
      if p = q ∧ share ≠ none then turn (t.leaves p share) else t.leaves p share := by
  obtain ⟨h, hg⟩ := SubTree.has_iff.mp hq
  rw [process_tree send ids sourceId hg, SubTree.leaves_set rfl]
  by_cases hp : p = q
  · subst hp
    rw [if_pos rfl, SubHier.leaves_turned, SubTree.leaves_of_get hg]
    by_cases hs : share = none <;> simp [hs]
  · rw [if_neg hp, if_neg fun h => hp h.1]

/-- The groups take their turns, and the tree stays in order. -/
theorem process_ok (hok : t.Ok) (hq : t.has q) (s : σ) :
    (subsProcess send ids sourceId q t s).2.1.Ok := by
  have hhas := process_has send ids sourceId hq s
  have hleaves := process_leaves send ids sourceId hq s
  obtain ⟨h, hg⟩ := SubTree.has_iff.mp hq
  have htree := process_tree send ids sourceId hg s
  refine ⟨fun p hp => ?_, fun p l hne hp => ?_, fun p h' hp => ?_, fun b => ?_, fun p share => ?_⟩
  · exact hok.rooted p ((hhas p).mp hp)
  · exact (hhas p).mpr (hok.closed p l hne ((hhas _).mp hp))
  · rw [htree, SubTree.setNode, Heap.get_set] at hp
    split at hp
    · obtain rfl := Option.some.inj hp
      exact SubHier.ok_turned (hok.node q h hg)
    · exact hok.node p h' hp
  · have hsum := Heap.sum_set_old (fun _ (g : SubHier) => g.count b) h.turned hg
    have hcount := hok.counted b
    rw [SubHier.count_turned] at hsum
    have htotal : (t.setNode q h.turned).total b = t.total b := Nat.add_right_cancel hsum
    rw [htree, htotal]
    cases b <;> exact hcount
  · rw [hleaves]
    split
    · exact ((perm_turn _).map _).nodup_iff.mpr (hok.once p share)
    · exact hok.once p share

end Process

/-! ## A search is a walk -/

section Walk

variable {σ : Type} (send : Path → Option Bytes → SubLeaf → σ → Rc × σ)
  (ids : CtxId → Option Bytes) (sourceId : Bytes)

def processAll (nodes : List Path) (r : SubTree × σ) : SubTree × σ :=
  nodes.foldl (fun r q => (subsProcess send ids sourceId q r.1 r.2).2) r

/-- The result `r` comes from calls for some of the nodes `visits`, in their order. -/
def Walks (visits : List Path) (t : SubTree) (s : σ) (r : Rc × SubTree × σ) : Prop :=
  ∃ nodes, List.Sublist nodes visits ∧ r.2 = processAll send ids sourceId nodes (t, s)

variable {t₀ t : SubTree} {p : Path}

def SameNodes (t₀ t : SubTree) : Prop := ∀ p, t.has p ↔ t₀.has p

variable {send ids sourceId}

theorem SameNodes.hasChildren (h : SameNodes t₀ t) (p : Path) :
    t.hasChildren p = t₀.hasChildren p := by
  rw [Bool.eq_iff_iff, SubTree.hasChildren_iff, SubTree.hasChildren_iff]
  exact exists_congr fun l => h _

theorem sameNodes_processAll (h : SameNodes t₀ t) (nodes : List Path) (hnodes : ∀ q ∈ nodes, t₀.has q)
    (s : σ) : SameNodes t₀ (processAll send ids sourceId nodes (t, s)).1 := by
  induction nodes generalizing t s with
  | nil => exact h
  | cons q nodes ih =>
    obtain ⟨hq, hnodes⟩ := List.forall_mem_cons.mp hnodes
    refine ih (fun p => ?_) hnodes _
    exact (process_has send ids sourceId ((h q).mpr hq) s p).trans (h p)

theorem walks_absorb {visits visits' : List Path} {s : σ} {r : Rc × SubTree × σ} {found : Bool}
    {k : Bool → SubTree → σ → Rc × SubTree × σ} (hvisits : ∀ q ∈ visits, t₀.has q)
    (ht : SameNodes t₀ t) (hr : Walks send ids sourceId visits t s r)
    (hk : ∀ found t s, SameNodes t₀ t → Walks send ids sourceId visits' t s (k found t s)) :
    Walks send ids sourceId (visits ++ visits') t s (absorb r found k) := by
  obtain ⟨nodes, hsub, hrun⟩ := hr
  have hsame : SameNodes t₀ r.2.1 := by
    rw [hrun]
    exact sameNodes_processAll ht nodes (fun q hq => hvisits q (hsub.subset hq)) s
  have hon : ∀ found, Walks send ids sourceId (visits ++ visits') t s (k found r.2.1 r.2.2) := by
    intro found
    obtain ⟨nodes', hsub', hrun'⟩ := hk found r.2.1 r.2.2 hsame
    refine ⟨nodes ++ nodes', hsub.append hsub', ?_⟩
    rw [hrun']
    show processAll send ids sourceId nodes' r.2 = _
    rw [hrun]
    exact (List.foldl_append ..).symm
  unfold absorb
  split
  · exact hon true
  · split
    · exact ⟨nodes, hsub.trans (List.sublist_append_left visits visits'), hrun⟩
    · exact hon found

theorem walks_done (t : SubTree) (s : σ) (rc : Rc) : Walks send ids sourceId [] t s (rc, t, s) :=
  ⟨[], List.Sublist.refl _, rfl⟩

theorem walks_process (q : Path) (t : SubTree) (s : σ) :
    Walks send ids sourceId [q] t s (subsProcess send ids sourceId q t s) :=
  ⟨[q], List.Sublist.refl _, rfl⟩

theorem has_visitHash {q : Path} (h : q ∈ visitHash t₀ p) : t₀.has q := by
  unfold visitHash at h
  split at h
  · rename_i hhash
    rw [List.mem_singleton.mp h]
    exact hhash.1
  · cases h

theorem has_visitNode {xs : List Bytes} {q : Path} (hp : t₀.has p) (h : q ∈ visitNode t₀ xs p) :
    t₀.has q := by
  induction xs generalizing p with
  | nil =>
    rcases List.mem_append.mp h with h | h
    · exact has_visitHash h
    · rw [List.mem_singleton.mp h]
      exact hp
  | cons x xs ih =>
    rw [visitNode, List.mem_append, List.mem_append] at h
    rcases h with h | h | h
    · split at h
      · exact ih ‹_› h
      · cases h
    · split at h
      · exact ih ‹_› h
      · cases h
    · exact has_visitHash h

theorem has_visitBelow {xs : List Bytes} {q : Path} (hp : t₀.has p) (h : q ∈ visitBelow t₀ xs p) :
    t₀.has q := by
  cases xs with
  | nil => exact has_visitHash h
  | cons x xs => exact has_visitNode hp h

theorem searchHash_walks (ht : SameNodes t₀ t) (p : Path) (found : Bool) (s : σ) :
    Walks send ids sourceId (visitHash t₀ p) t s (searchHash send ids sourceId p found t s) := by
  have hdone : ∀ found t (s : σ), SameNodes t₀ t → Walks send ids sourceId [] t s
      (if found = true then (Rc.success, t, s) else (Rc.noSubscribers, t, s)) := by
    intro found t s _
    split
    · exact walks_done t s _
    · exact walks_done t s _
  have hcond : ((t.nodes.get (p ++ [[hash]])).isSome ∧ t.hasChildren (p ++ [[hash]]) = false) ↔
      (t₀.has (p ++ [[hash]]) ∧ t₀.hasChildren (p ++ [[hash]]) = false) := by
    rw [ht.hasChildren]
    exact and_congr_left fun _ => ht _
  unfold searchHash visitHash
  simp only [hcond]
  split
  · rename_i h
    have hvisits : ∀ q ∈ [p ++ [[hash]]], t₀.has q := List.forall_mem_singleton.mpr h.1
    exact walks_absorb hvisits ht (walks_process _ t s) hdone
  · exact hdone found t s ht

theorem searchBranch_walks (ht : SameNodes t₀ t) {xs : List Bytes} {visits : List Path}
    {found : Bool} {s : σ} {search : Path → SubTree → σ → Rc × SubTree × σ}
    {k : Bool → SubTree → σ → Rc × SubTree × σ}
    (hsearch : Walks send ids sourceId (visitBelow t₀ xs p) t s (search p t s))
    (hk : ∀ found t s, SameNodes t₀ t → Walks send ids sourceId visits t s (k found t s)) :
    Walks send ids sourceId ((if t₀.has p then visitNode t₀ xs p else []) ++ visits) t s
      (searchBranch send ids sourceId search xs.isEmpty p found t s k) := by
  unfold searchBranch
  cases hp : t.nodes.get p with
  | none =>
    have hnot : ¬ t₀.has p := fun h => Option.not_isSome_iff_eq_none.mpr hp ((ht p).mpr h)
    rw [if_neg hnot]
    exact hk found t s ht
  | some h =>
    have hp0 : t₀.has p := (ht p).mp (SubTree.has_iff.mpr ⟨h, hp⟩)
    rw [if_pos hp0, visitNode_eq, List.append_assoc]
    refine walks_absorb (fun q hq => has_visitBelow hp0 hq) ht hsearch fun found t s ht => ?_
    cases xs with
    | nil =>
      rw [if_pos rfl]
      have hvisits : ∀ q ∈ [p], t₀.has q := List.forall_mem_singleton.mpr hp0
      exact walks_absorb hvisits ht (walks_process p t s) hk
    | cons x xs => exact hk found t s ht

/-- **A search is a walk over the nodes it visits.** -/
theorem subSearch_walks (topics : List Bytes) : ∀ {t : SubTree} (p : Path) (s : σ),
    SameNodes t₀ t → Walks send ids sourceId (visitBelow t₀ topics p) t s
      (subSearch send ids sourceId topics p t s) := by
  induction topics with
  | nil =>
    intro t p s ht
    exact searchHash_walks ht p false s
  | cons x xs ih =>
    intro t p s ht
    rw [visitBelow, visitNode]
    unfold subSearch
    refine searchBranch_walks ht (ih _ _ ht) fun found t s ht => ?_
    refine searchBranch_walks ht (ih _ _ ht) fun found t s ht => ?_
    exact searchHash_walks ht p found s

/-! ## No node twice -/

theorem nodup_visitHash (t : SubTree) (p : Path) : (visitHash t p).Nodup := by
  unfold visitHash
  split
  · exact List.nodup_singleton _
  · exact List.nodup_nil

theorem mem_branch {xs : List Bytes} {x : Bytes} {q : Path}
    (h : q ∈ (if t.has (p ++ [x]) then visitNode t xs (p ++ [x]) else [])) :
    p ++ [x] <+: q := by
  split at h
  · exact prefix_of_mem_visitNode h
  · cases h

/-- Below different children there are different nodes. -/
theorem child_unique {x y : Bytes} {q : Path} (hx : p ++ [x] <+: q) (hy : p ++ [y] <+: q) :
    x = y := by
  obtain ⟨r, rfl⟩ := hx
  obtain ⟨r', hr⟩ := hy
  rw [List.append_assoc, List.append_assoc, List.append_cancel_left_eq] at hr
  exact (List.cons.inj hr).1.symm

/-- The levels of a topic are no wildcards, so no node is visited twice. -/
theorem nodup_visitNode {xs : List Bytes} (hxs : ∀ x ∈ xs, x ≠ [plus] ∧ x ≠ [hash]) (p : Path) :
    (visitNode t xs p).Nodup := by
  induction xs generalizing p with
  | nil =>
    refine List.nodup_append.mpr ⟨nodup_visitHash t p, List.nodup_singleton p, ?_⟩
    rintro q hq _ hp rfl
    have hlen := congrArg List.length ((prefix_of_mem_visitHash hq).symm.trans (List.mem_singleton.mp hp))
    rw [List.length_append, List.length_singleton] at hlen
    omega
  | cons x xs ih =>
    obtain ⟨hx, hxs⟩ := List.forall_mem_cons.mp hxs
    have hplus : ([plus] : Bytes) ≠ [hash] := by decide
    have hbranch : ∀ y : Bytes,
        (if t.has (p ++ [y]) then visitNode t xs (p ++ [y]) else []).Nodup := by
      intro y
      split
      · exact ih hxs (p ++ [y])
      · exact List.nodup_nil
    have hbelow : ∀ {q}, q ∈ visitHash t p → p ++ [[hash]] <+: q := fun hq =>
      ⟨[], by rw [prefix_of_mem_visitHash hq, List.append_nil]⟩
    rw [visitNode]
    refine List.nodup_append.mpr ⟨hbranch x, List.nodup_append.mpr ⟨hbranch [plus],
      nodup_visitHash t p, ?_⟩, ?_⟩
    · rintro q hq _ hq' rfl
      exact hplus (child_unique (mem_branch hq) (hbelow hq'))
    · rintro q hq _ hq' rfl
      rcases List.mem_append.mp hq' with hq' | hq'
      · exact hx.1 (child_unique (mem_branch hq) (mem_branch hq'))
      · exact hx.2 (child_unique (mem_branch hq) (hbelow hq'))

/-- **A publish is a walk over different nodes of the tree.** -/
theorem searchTopic_walks {topic : Bytes} (htopic : mosquittoPubTopicCheck topic = Rc.success)
    (t : SubTree) (s : σ) : ∃ nodes : List Path, nodes.Nodup ∧ (∀ q ∈ nodes, t.has q) ∧
      (searchTopic send ids sourceId topic t s).2 = processAll send ids sourceId nodes (t, s) := by
  have hnone : ∃ nodes : List Path, nodes.Nodup ∧ (∀ q ∈ nodes, t.has q) ∧
      (t, s) = processAll send ids sourceId nodes (t, s) :=
    ⟨[], List.nodup_nil, fun q hq => (nomatch hq), rfl⟩
  unfold searchTopic
  cases htok : subTopicTokenise topic with
  | error rc => exact hnone
  | ok r =>
    obtain ⟨split, share⟩ := r
    have hwild : ∀ x ∈ split, x ≠ [plus] ∧ x ≠ [hash] := fun x hx =>
      not_wildcard_of_level htopic (mem_levels_of_mem_topics htok hx)
    unfold searchRoot
    simp only
    cases hroot : t.nodes.get [split.headD []] with
    | none => exact hnone
    | some h =>
      have hhas : t.has [split.headD []] := SubTree.has_iff.mpr ⟨h, hroot⟩
      have hwalk : Walks send ids sourceId (visitBelow t split [split.headD []]) t s
          (subSearch send ids sourceId split [split.headD []] t s) :=
        subSearch_walks split _ s fun _ => Iff.rfl
      obtain ⟨nodes, hsub, hrun⟩ := hwalk
      have hnodup : (visitBelow t split [split.headD []]).Nodup := by
        cases split with
        | nil => exact nodup_visitHash t _
        | cons x xs => exact nodup_visitNode hwild _
      exact ⟨nodes, hnodup.sublist hsub, fun q hq => has_visitBelow hhas (hsub.subset hq), hrun⟩

end Walk

/-! ## Publishes -/

/-- A call of `sub__messages_queue`, with what `subs__send` does then. -/
structure Publication (σ : Type) where
  send : Path → Option Bytes → SubLeaf → σ → Rc × σ
  sourceId : Bytes
  topic : Bytes

/-- The tree and the state after a publish, and its calls of `subs__send`. -/
def Publication.exec {σ : Type} (ids : CtxId → Option Bytes) (pub : Publication σ)
    (r : SubTree × σ) : (SubTree × σ) × List Sent :=
  let r' := searchTopic (logged pub.send) ids pub.sourceId pub.topic r.1 (r.2, [])
  ((r'.2.1, r'.2.2.1), r'.2.2.2)

def publishAll {σ : Type} (ids : CtxId → Option Bytes) :
    List (Publication σ) → SubTree × σ → List (List Sent)
  | [], _ => []
  | pub :: pubs, r => (pub.exec ids r).2 :: publishAll ids pubs (pub.exec ids r).1

/-- The publish has reached the node: a leaf there was served. -/
def reaches (p : Path) (log : List Sent) : Bool := log.any (·.hier = p)

section Publish

variable {σ : Type} {ids : CtxId → Option Bytes} {sourceId : Bytes} {t : SubTree} {p : Path}
  {name : Bytes}

/-- A walk that meets the node of a group once serves one member. -/
theorem processAll_calls (send : Path → Option Bytes → SubLeaf → σ → Rc × σ) {nodes : List Path}
    (hnd : nodes.Nodup) (hok : t.Ok) (hnodes : ∀ q ∈ nodes, t.has q) (s : σ × List Sent) :
    let r := processAll (logged send) ids sourceId nodes (t, s)
    r.1.Ok ∧ r.1.leaves p (some name) =
        (if p ∈ nodes then turn (t.leaves p (some name)) else t.leaves p (some name)) ∧
      ∃ log, r.2.2 = s.2 ++ log ∧ (∀ e ∈ log, e.hier ∈ nodes) ∧ groupCalls p name log =
        if p ∈ nodes then (t.leaves p (some name)).head?.toList else [] := by
  induction nodes generalizing t s with
  | nil => exact ⟨hok, rfl, [], (List.append_nil _).symm, fun e he => (nomatch he), rfl⟩
  | cons q nodes ih =>
    obtain ⟨hq, hnd⟩ := List.nodup_cons.mp hnd
    obtain ⟨hhas, hnodes⟩ := List.forall_mem_cons.mp hnodes
    obtain ⟨log, hlog, hhier, hcalls⟩ := process_calls send ids sourceId name hok hhas s
    have hleaves := process_leaves (logged send) ids sourceId hhas s p (some name)
    obtain ⟨hok', hleaves', log', hlog', hhier', hcalls'⟩ :=
      ih hnd (process_ok (logged send) ids sourceId hok hhas s)
        (fun k hk => (process_has (logged send) ids sourceId hhas s k).mpr (hnodes k hk))
        (subsProcess (logged send) ids sourceId q t s).2.2
    have hresult : (processAll (logged send) ids sourceId (q :: nodes) (t, s)).2.2 =
        s.2 ++ (log ++ log') := by
      show (processAll (logged send) ids sourceId nodes _).2.2 = _
      rw [hlog', hlog, List.append_assoc]
    have hmem : ∀ e ∈ log ++ log', e.hier ∈ q :: nodes :=
      List.forall_mem_append.mpr ⟨fun e he => (hhier e he) ▸ List.mem_cons_self,
        fun e he => List.mem_cons_of_mem q (hhier' e he)⟩
    by_cases hp : p = q
    · subst hp
      rw [if_neg hq] at hleaves' hcalls'
      rw [if_pos ⟨rfl, Option.some_ne_none name⟩] at hleaves
      refine ⟨hok', ?_, log ++ log', hresult, hmem, ?_⟩
      · rw [if_pos List.mem_cons_self]
        exact hleaves'.trans hleaves
      · rw [if_pos List.mem_cons_self, groupCalls_append, hcalls, hcalls', List.append_nil]
    · have hcons : p ∈ q :: nodes ↔ p ∈ nodes := by
        rw [List.mem_cons]
        exact or_iff_right hp
      have hnone : groupCalls p name log = [] := groupCalls_elsewhere fun e he hc =>
        hp (hc.1.symm.trans (hhier e he))
      rw [if_neg fun h => hp h.1] at hleaves
      rw [hleaves] at hleaves' hcalls'
      refine ⟨hok', ?_, log ++ log', hresult, hmem, ?_⟩
      · simp only [hcons]
        exact hleaves'
      · simp only [hcons]
        rw [groupCalls_append, hnone, hcalls', List.nil_append]

/-- **A publish that reaches the node of a group serves its head**, which goes to the back; any
other publish leaves the group alone. -/
theorem publication_turn (pub : Publication σ)
    (htopic : mosquittoPubTopicCheck pub.topic = Rc.success) (hok : t.Ok) (s : σ)
    (hmembers : t.leaves p (some name) ≠ []) :
    let r := pub.exec ids (t, s)
    r.1.1.Ok ∧ r.1.1.leaves p (some name) =
        (if reaches p r.2 then turn (t.leaves p (some name)) else t.leaves p (some name)) ∧
      groupCalls p name r.2 =
        if reaches p r.2 then (t.leaves p (some name)).head?.toList else [] := by
  intro r
  have hwalk : ∃ nodes : List Path, nodes.Nodup ∧ (∀ q ∈ nodes, t.has q) ∧
      (searchTopic (logged pub.send) ids pub.sourceId pub.topic t (s, [])).2 =
        processAll (logged pub.send) ids pub.sourceId nodes (t, (s, [])) :=
    searchTopic_walks htopic t (s, [])
  obtain ⟨nodes, hnd, hnodes, hrun⟩ := hwalk
  obtain ⟨hok', hleaves, log, hlog, hhier, hcalls⟩ :=
    @processAll_calls σ ids pub.sourceId t p name pub.send nodes hnd hok hnodes (s, [])
  rw [← hrun] at hok' hleaves hlog
  have hreach : reaches p log = true ↔ p ∈ nodes := by
    unfold reaches
    rw [List.any_eq_true]
    constructor
    · rintro ⟨e, he, hp⟩
      exact (of_decide_eq_true hp) ▸ hhier e he
    · intro hp
      by_contra hnone
      have hempty : groupCalls p name log = [] := groupCalls_elsewhere fun e he hc =>
        hnone ⟨e, he, decide_eq_true hc.1⟩
      rw [if_pos hp, hempty] at hcalls
      cases hl : t.leaves p (some name) with
      | nil => exact hmembers hl
      | cons leaf rest =>
        rw [hl] at hcalls
        cases hcalls
  have hr : r.2 = log := hlog
  rw [hr]
  simp only [hreach]
  exact ⟨hok', hleaves, hcalls⟩

/-- What a group has served since it was `members`, and what it has not. -/
def Served (members : List SubLeaf) (p : Path) (name : Bytes) (t : SubTree)
    (calls : List SubLeaf) : Prop :=
  ∃ rest, members = calls ++ rest ∧ t.leaves p (some name) = rest ++ calls

/-- As long as no member is served twice, the members are served in their order. -/
theorem served_run {members calls : List SubLeaf} (pubs : List (Publication σ))
    (htopics : ∀ pub ∈ pubs, mosquittoPubTopicCheck pub.topic = Rc.success) (hok : t.Ok) (s : σ)
    (hne : members ≠ []) (h : Served members p name t calls)
    (hlen : calls.length + ((publishAll ids pubs (t, s)).filter (reaches p)).length ≤
      members.length) :
    ∃ rest, members = calls ++ groupCalls p name (publishAll ids pubs (t, s)).flatten ++ rest ∧
      (groupCalls p name (publishAll ids pubs (t, s)).flatten).length =
        ((publishAll ids pubs (t, s)).filter (reaches p)).length := by
  induction pubs generalizing t s calls with
  | nil =>
    obtain ⟨rest, hmembers, -⟩ := h
    exact ⟨rest, by rw [hmembers]; simp [publishAll, groupCalls], rfl⟩
  | cons pub pubs ih =>
    obtain ⟨htopic, htopics⟩ := List.forall_mem_cons.mp htopics
    obtain ⟨rest, hmembers, hleaves⟩ := h
    have hfull : t.leaves p (some name) ≠ [] := by
      rw [hleaves]
      intro hnil
      obtain ⟨rfl, rfl⟩ := List.append_eq_nil_iff.mp hnil
      exact hne hmembers
    obtain ⟨hok', hleaves', hcalls⟩ := @publication_turn σ ids t p name pub htopic hok s hfull
    have hflat : groupCalls p name (publishAll ids (pub :: pubs) (t, s)).flatten =
        groupCalls p name (pub.exec ids (t, s)).2 ++
          groupCalls p name (publishAll ids pubs (pub.exec ids (t, s)).1).flatten := by
      rw [publishAll, List.flatten_cons, groupCalls_append]
    rw [hflat, hcalls]
    rw [publishAll, List.filter_cons] at hlen ⊢
    by_cases hreach : reaches p (pub.exec ids (t, s)).2 = true
    · rw [if_pos hreach] at hleaves' hlen ⊢
      rw [if_pos hreach]
      -- a member that has not been served yet is the head
      cases rest with
      | nil =>
        rw [hmembers, List.append_nil, List.length_cons] at hlen
        omega
      | cons leaf rest =>
        rw [hleaves] at hleaves'
        have hnext : Served members p name (pub.exec ids (t, s)).1.1 (calls ++ [leaf]) := by
          refine ⟨rest, by rw [hmembers]; simp, ?_⟩
          rw [hleaves', List.cons_append, turn, List.append_assoc]
        rw [List.length_cons] at hlen ⊢
        have hlen' : (calls ++ [leaf]).length + ((publishAll ids pubs
            (pub.exec ids (t, s)).1).filter (reaches p)).length ≤ members.length := by
          rw [List.length_append, List.length_singleton]
          omega
        obtain ⟨rest', hrest', hcount⟩ := ih htopics hok' (pub.exec ids (t, s)).1.2 hnext hlen'
        refine ⟨rest', ?_, ?_⟩
        · rw [hleaves, List.cons_append, List.head?_cons, Option.toList_some, ← List.append_assoc]
          exact hrest'
        · rw [hleaves, List.cons_append, List.head?_cons, Option.toList_some, List.length_append,
            hcount, List.length_singleton, Nat.add_comm]
    · rw [if_neg hreach] at hleaves' hlen ⊢
      rw [if_neg hreach, List.nil_append]
      exact ih htopics hok' (pub.exec ids (t, s)).1.2 ⟨rest, hmembers, hleaves'.trans hleaves⟩ hlen

end Publish

/-! ## Histories with publishes -/

/-- A call that changes the tree or sends a message. -/
inductive HubOp (σ : Type) where
  | sub (op : SubOp)
  | publish (pub : Publication σ)

namespace HubOp

variable {σ : Type}

def exec (ids : CtxId → Option Bytes) (protocol : CtxId → Protocol) (r : SubWorld × σ) :
    HubOp σ → SubWorld × σ
  | sub op => (r.1.step ids protocol op, r.2)
  | publish pub =>
    let r' := (pub.exec ids (r.1.tree, r.2)).1
    ({ r.1 with tree := r'.1 }, r'.2)

/-- Filters and topics are checked before they get here. -/
def Valid : HubOp σ → Prop
  | sub op => op.Valid
  | publish pub => mosquittoPubTopicCheck pub.topic = Rc.success

instance : ∀ op : HubOp σ, Decidable op.Valid
  | sub op => inferInstanceAs (Decidable op.Valid)
  | publish _ => inferInstanceAs (Decidable (_ = _))

/-- The world after a history. -/
def run (ids : CtxId → Option Bytes) (protocol : CtxId → Protocol) (ops : List (HubOp σ)) (s : σ) :
    SubWorld × σ :=
  ops.foldl (exec ids protocol) (SubWorld.init, s)

end HubOp

section History

variable {σ : Type} {ids : CtxId → Option Bytes} {protocol : CtxId → Protocol}

theorem ok_sub {w : SubWorld} (hok : w.tree.Ok) {op : SubOp} (hv : op.Valid) :
    (w.step ids protocol op).tree.Ok := by
  cases op with
  | add c sub qos identifier options =>
    cases htok : subTopicTokenise sub with
    | error rc =>
      rw [(step_refused ids protocol c htok).1]
      exact hok
    | ok r => exact (step_add ids protocol c qos identifier options hok htok (hv.length_le htok)).1
  | remove c sub =>
    cases htok : subTopicTokenise sub with
    | error rc =>
      rw [(step_refused ids protocol c htok).2]
      exact hok
    | ok r => exact (step_remove ids protocol c hok htok).1

theorem ok_publish (pub : Publication σ) (htopic : mosquittoPubTopicCheck pub.topic = Rc.success)
    {t : SubTree} (hok : t.Ok) (s : σ) : (pub.exec ids (t, s)).1.1.Ok := by
  have hwalk : ∃ nodes : List Path, nodes.Nodup ∧ (∀ q ∈ nodes, t.has q) ∧
      (searchTopic (logged pub.send) ids pub.sourceId pub.topic t (s, [])).2 =
        processAll (logged pub.send) ids pub.sourceId nodes (t, (s, [])) :=
    searchTopic_walks htopic t (s, [])
  obtain ⟨nodes, hnd, hnodes, hrun⟩ := hwalk
  have hok' := (@processAll_calls σ ids pub.sourceId t [] [] pub.send nodes hnd hok hnodes
    (s, [])).1
  rw [← hrun] at hok'
  exact hok'

theorem ok_run {ops : List (HubOp σ)} (hv : ∀ op ∈ ops, op.Valid) (s : σ) :
    (HubOp.run ids protocol ops s).1.tree.Ok := by
  induction ops using List.reverseRecOn with
  | nil => exact SubTree.dbOpen_spec.1
  | append_singleton ops op ih =>
    have hok := ih fun op h => hv op (List.mem_append_left _ h)
    have hop := hv op (List.mem_append_right _ (List.mem_singleton.mpr rfl))
    rw [HubOp.run, List.foldl_append, List.foldl_cons, List.foldl_nil]
    cases op with
    | sub op => exact ok_sub hok hop
    | publish pub => exact ok_publish pub hop hok _

/-- **Shared groups take turns.** After any history of subscriptions and publishes, let `n`
publishes reach the node of a group of `n` members, with others that do not reach it in between:
`subs__send` is called for each member once, in the order of the group. -/
theorem shared_groups_take_turns (ids : CtxId → Option Bytes) (protocol : CtxId → Protocol)
    (history : List (HubOp σ)) (hv : ∀ op ∈ history, op.Valid) (s : σ) (pubs : List (Publication σ))
    (htopics : ∀ pub ∈ pubs, mosquittoPubTopicCheck pub.topic = Rc.success) (p : Path)
    (name : Bytes) :
    let w := HubOp.run ids protocol history s
    let members := w.1.tree.leaves p (some name)
    let logs := publishAll ids pubs (w.1.tree, w.2)
    members ≠ [] → (logs.filter (reaches p)).length = members.length →
      groupCalls p name logs.flatten = members ∧ (members.map (·.context)).Nodup := by
  intro w members logs hne hcount
  have hok : w.1.tree.Ok := ok_run hv s
  have hstart : Served members p name w.1.tree [] := ⟨members, rfl, (List.append_nil _).symm⟩
  obtain ⟨rest, hmembers, hlen⟩ := @served_run σ ids w.1.tree p name members [] pubs htopics hok
    w.2 hne hstart (by
      rw [List.length_nil, Nat.zero_add]
      exact hcount.le)
  rw [List.nil_append] at hmembers
  have hrest : rest = [] := by
    have htotal : members.length = members.length + rest.length := by
      conv_lhs => rw [hmembers]
      rw [List.length_append, hlen]
      exact congrArg (· + rest.length) hcount
    exact List.length_eq_zero_iff.mp (by omega)
  refine ⟨?_, hok.once p (some name)⟩
  rw [hrest, List.append_nil] at hmembers
  exact hmembers.symm

/-- A publish during which every other call fails. -/
def flakyPublish (topic : String) : Publication Nat where
  send _ _ _ n := (if n % 2 = 0 then Rc.success else 1, n + 1)
  sourceId := ascii "pub"
  topic := ascii topic

/-- Two clients of a group, beside a client of `#`: two messages on `a`, with one on `b` between
them. -/
theorem shared_groups_take_turns_two :
    let ids : CtxId → Option Bytes := fun c => some (List.replicate c 0)
    let history : List (HubOp Nat) := [.sub (.add 0 (ascii "$share/g/a") .q1 0 0),
      .sub (.add 1 (ascii "$share/g/a") .q1 0 0), .sub (.add 2 (ascii "#") .q0 0 0)]
    let w := HubOp.run ids (fun _ => .mqtt5) history 0
    groupCalls [[], [], ascii "a"] (ascii "g") (publishAll ids
      [flakyPublish "a", flakyPublish "b", flakyPublish "a"] (w.1.tree, w.2)).flatten =
        [newLeaf 0 .q1 0 0, newLeaf 1 .q1 0 0] := by
  intro ids history w
  have hturns := shared_groups_take_turns ids (fun _ => .mqtt5) history (by decide) 0
    [flakyPublish "a", flakyPublish "b", flakyPublish "a"]
    (List.forall_mem_cons.mpr ⟨by decide, List.forall_mem_cons.mpr ⟨by decide,
      List.forall_mem_singleton.mpr (by decide)⟩⟩) [[], [], ascii "a"] (ascii "g")
    (by decide +kernel) (by decide +kernel)
  exact hturns.1.trans (by decide +kernel)

end History

end AdaptiveMqtt.Sub
