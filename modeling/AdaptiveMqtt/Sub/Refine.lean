import AdaptiveMqtt.Sub.Spec

/-!
# The subscription tree refines a map

The map gives every client and every filter string the QoS and the subscription
identifier of the last `sub__add`. `Rep` relates it to a tree: the leaf of a
client at an address is the entry of its map at the filter that leads there. A
filter the tokeniser refuses (`$share` without a group, the empty string) has no
address, and `sub__add` refuses it as well.
-/

namespace AdaptiveMqtt.Sub

open Lib Topic

/-- Every context has a client id and no two share one. -/
structure DistinctIds (ids : CtxId → Option Bytes) : Prop where
  named : ∀ c, ids c ≠ none
  inj : ∀ c d, ids c = ids d → c = d

/-- The filter of a call. -/
def SubOp.sub : SubOp → Bytes
  | .add _ sub _ _ _ => sub
  | .remove _ sub => sub

/-- The filter passes `mosquitto_sub_topic_check`, as every caller has it checked. -/
def SubOp.Valid (op : SubOp) : Prop := mosquittoSubTopicCheck op.sub = Rc.success

instance (op : SubOp) : Decidable op.Valid := inferInstanceAs (Decidable (_ = _))

/-- QoS and identifier of every subscription. -/
abbrev SubMap := CtxId → Bytes → Option (Qos × Nat)

namespace SubMap

def set (m : SubMap) (c : CtxId) (sub : Bytes) (v : Option (Qos × Nat)) : SubMap :=
  fun d s => if d = c ∧ s = sub then v else m d s

def step (m : SubMap) : SubOp → SubMap
  | .add c sub qos identifier _ => m.set c sub (some (qos, identifier))
  | .remove c sub => m.set c sub none

def run (ops : List SubOp) : SubMap := ops.foldl step fun _ _ => none

end SubMap

def SubHier.IsLeaf (h : SubHier) (leaf : SubLeaf) : Option Bytes → Prop
  | none => leaf ∈ h.subs
  | some name => ∃ g ∈ h.shared, g.name = name ∧ leaf ∈ g.subs

def SubTree.IsLeaf (t : SubTree) (p : Path) (share : Option Bytes) (leaf : SubLeaf) : Prop :=
  ∃ h, t.nodes.get p = some h ∧ h.IsLeaf leaf share

theorem SubHier.mem_groupLeaves {groups : List SubShared} (hnd : (groups.map (·.name)).Nodup)
    {name : Bytes} {leaf : SubLeaf} :
    leaf ∈ groupLeaves groups name ↔ ∃ g ∈ groups, g.name = name ∧ leaf ∈ g.subs := by
  induction groups with
  | nil => simp [groupLeaves]
  | cons g groups ih =>
    rw [List.map_cons, List.nodup_cons] at hnd
    rw [groupLeaves_cons]
    split
    · rename_i hg
      constructor
      · intro h
        exact ⟨g, List.mem_cons_self, hg, h⟩
      · rintro ⟨g', hg', hn, h⟩
        rcases List.mem_cons.mp hg' with rfl | hmem
        · exact h
        · exact absurd (List.mem_map.mpr ⟨g', hmem, hn.trans hg.symm⟩) hnd.1
    · rename_i hg
      rw [ih hnd.2]
      constructor
      · rintro ⟨g', hg', h⟩
        exact ⟨g', List.mem_cons_of_mem g hg', h⟩
      · rintro ⟨g', hg', hn, h⟩
        rcases List.mem_cons.mp hg' with rfl | hmem
        · exact absurd hn hg
        · exact ⟨g', hmem, hn, h⟩

theorem SubTree.isLeaf_iff {t : SubTree} (hok : t.Ok) {p : Path} {share : Option Bytes}
    {leaf : SubLeaf} : t.IsLeaf p share leaf ↔ leaf ∈ t.leaves p share := by
  unfold IsLeaf
  constructor
  · rintro ⟨h, hg, hl⟩
    rw [leaves_of_get hg]
    cases share with
    | none => exact hl
    | some name => exact (SubHier.mem_groupLeaves (hok.node p h hg).names).mpr hl
  · intro hl
    obtain ⟨h, hg⟩ := has_iff.mp (has_of_leaves (List.ne_nil_of_mem hl))
    rw [leaves_of_get hg] at hl
    refine ⟨h, hg, ?_⟩
    cases share with
    | none => exact hl
    | some name => exact (SubHier.mem_groupLeaves (hok.node p h hg).names).mp hl

/-! ## One leaf list -/

/-- Some leaf of the list is the client's, with this QoS and identifier. -/
def Carries (ls : List SubLeaf) (c : CtxId) (v : Qos × Nat) : Prop :=
  ∃ leaf ∈ ls, leaf.context = c ∧ leaf.qos = v.1 ∧ leaf.identifier = v.2

section Leaf

variable {ids : CtxId → Option Bytes} {ls : List SubLeaf} {c d : CtxId} {v : Qos × Nat}

theorem carries_append {ls' : List SubLeaf} :
    Carries (ls ++ ls') c v ↔ Carries ls c v ∨ Carries ls' c v := by
  unfold Carries
  simp only [List.mem_append]
  constructor
  · rintro ⟨l, hl | hl, h⟩
    · exact .inl ⟨l, hl, h⟩
    · exact .inr ⟨l, hl, h⟩
  · rintro (⟨l, hl, h⟩ | ⟨l, hl, h⟩)
    · exact ⟨l, .inl hl, h⟩
    · exact ⟨l, .inr hl, h⟩

theorem carries_cons {a : SubLeaf} : Carries (a :: ls) c v ↔
    (a.context = c ∧ a.qos = v.1 ∧ a.identifier = v.2) ∨ Carries ls c v := by
  unfold Carries
  simp

theorem not_carries_of_notMem (h : c ∉ ls.map (·.context)) : ¬ Carries ls c v := by
  rintro ⟨l, hl, rfl, -⟩
  exact h (List.mem_map.mpr ⟨l, hl, rfl⟩)

theorem carries_addLeaf (hids : DistinctIds ids) (hnd : (ls.map (·.context)).Nodup) (qos : Qos)
    (identifier : Nat) (options : UInt8) :
    Carries (addLeaf ids c qos identifier options ls).2 d v ↔
      if d = c then v = (qos, identifier) else Carries ls d v := by
  have hsame : ∀ x : SubLeaf, sameClient ids c x ↔ x.context = c := by
    intro x
    exact ⟨fun h => hids.inj _ _ h.2, fun h => ⟨hids.named _, by rw [h]⟩⟩
  have hv : v = (qos, identifier) ↔ qos = v.1 ∧ identifier = v.2 := by
    rw [Prod.ext_iff]
    exact ⟨fun h => ⟨h.1.symm, h.2.symm⟩, fun h => ⟨h.1.symm, h.2.symm⟩⟩
  unfold addLeaf
  rw [if_neg (hids.named c)]
  rcases subAddLeaf_cases ids c qos identifier options ls with
    ⟨pre, leaf, post, rfl, hs, -, hr⟩ | ⟨hno, hr⟩
  · obtain rfl := (hsame leaf).mp hs
    rw [List.map_append, List.map_cons, List.nodup_append, List.nodup_cons] at hnd
    obtain ⟨-, ⟨hpost, -⟩, hpre⟩ := hnd
    have hpre' : leaf.context ∉ pre.map (·.context) := fun h =>
      hpre _ h _ List.mem_cons_self rfl
    rw [hr]
    simp only [carries_append, carries_cons]
    split
    · rename_i hd
      subst hd
      simp only [not_carries_of_notMem hpre', not_carries_of_notMem hpost, true_and, or_false,
        false_or, hv]
    · rename_i hd
      simp only [Ne.symm hd, false_and, false_or]
  · rw [hr]
    have hc : c ∉ ls.map (·.context) := by
      intro h
      obtain ⟨x, hx, e⟩ := List.mem_map.mp h
      exact hno x hx ((hsame x).mpr e)
    have hnew : Carries [newLeaf c qos identifier options] d v ↔
        c = d ∧ qos = v.1 ∧ identifier = v.2 := by
      simp [Carries, newLeaf]
    rw [carries_append, hnew]
    split
    · rename_i hd
      subst hd
      simp only [not_carries_of_notMem hc, true_and, false_or, hv]
    · rename_i hd
      simp only [Ne.symm hd, false_and, or_false]

theorem addLeaf_ne_nil {qos : Qos} {identifier : Nat} {options : UInt8} (hc : ids c ≠ none) :
    (addLeaf ids c qos identifier options ls).2 ≠ [] := by
  rw [addLeaf, if_neg hc]
  exact subAddLeaf_ne_nil

theorem carries_without (hnd : (ls.map (·.context)).Nodup) :
    Carries (without c ls) d v ↔ if d = c then False else Carries ls d v := by
  induction ls with
  | nil => simp [Carries]
  | cons a ls ih =>
    rw [List.map_cons, List.nodup_cons] at hnd
    by_cases ha : a.context = c
    · rw [without, List.eraseP_cons_of_pos (by simpa using ha), carries_cons]
      split
      · rename_i hd
        rw [hd, ← ha]
        exact iff_of_false (not_carries_of_notMem hnd.1) id
      · rename_i hd
        have : a.context ≠ d := fun e => hd (e.symm.trans ha)
        simp [this]
    · rw [without, List.eraseP_cons_of_neg (by simpa using ha), carries_cons, carries_cons]
      have := ih hnd.2
      rw [without] at this
      rw [this]
      split
      · rename_i hd
        have : a.context ≠ d := fun e => ha (e.trans hd)
        simp [this]
      · exact Iff.rfl

end Leaf

/-! ## The refinement -/

/-- The tree represents the map. -/
structure Rep (t : SubTree) (m : SubMap) : Prop where
  ok : t.Ok
  pruned : t.Pruned []
  carries : ∀ p share c v, Carries (t.leaves p share) c v ↔
    ∃ sub topics, subTopicTokenise sub = .ok (topics, share) ∧ p = nodeOf topics ∧
      m c sub = some v

theorem SubTree.ok_nil : (SubTree.mk ∅ 0 0).Ok where
  rooted := fun _ h => nomatch h
  closed := fun _ _ _ h => nomatch h
  node := fun _ _ h => nomatch h
  counted := fun b => by cases b <;> rfl
  once := fun _ _ => List.nodup_nil

theorem SubTree.dbOpen_spec :
    dbOpen.Ok ∧ (∀ q, dbOpen.has q ↔ q = [ascii "$SYS"] ∨ q = [[]]) ∧
      ∀ q s, dbOpen.leaves q s = [] := by
  obtain ⟨h1, h2, h3⟩ := addHierEntry_spec (p := [[]]) ok_nil (by simp) (by simp)
  obtain ⟨h4, h5, h6⟩ := addHierEntry_spec (p := [ascii "$SYS"]) h1 (by simp) (by simp)
  refine ⟨h4, fun q => ?_, fun q s => by rw [dbOpen, h6, h3]; rfl⟩
  rw [dbOpen, h5, h2]
  have : ¬ (SubTree.mk ∅ 0 0).has q := fun h => nomatch h
  simp [this]

theorem rep_init : Rep SubTree.dbOpen (fun _ _ => none) := by
  obtain ⟨hok, hhas, hleaves⟩ := SubTree.dbOpen_spec
  refine ⟨hok, fun p hlen hp _ => ?_, fun p share c v => ?_⟩
  · rcases (hhas p).mp hp with rfl | rfl <;> simp at hlen
  · rw [hleaves]
    simp [Carries]

/-- Changing the map at a filter changes the leaves at its address only. -/
theorem rep_set {m : SubMap} {c : CtxId} {sub : Bytes} {topics : List Bytes}
    {share : Option Bytes} {w : Option (Qos × Nat)} {old new : Path → Option Bytes → List SubLeaf}
    (htok : subTopicTokenise sub = .ok (topics, share))
    (hold : ∀ p s d v, Carries (old p s) d v ↔
      ∃ sub topics, subTopicTokenise sub = .ok (topics, s) ∧ p = nodeOf topics ∧ m d sub = some v)
    (hnew : ∀ p s d v, Carries (new p s) d v ↔
      if p = nodeOf topics ∧ s = share ∧ d = c then w = some v else Carries (old p s) d v)
    (p : Path) (s : Option Bytes) (d : CtxId) (v : Qos × Nat) :
    Carries (new p s) d v ↔ ∃ sub' topics', subTopicTokenise sub' = .ok (topics', s) ∧
      p = nodeOf topics' ∧ (m.set c sub w) d sub' = some v := by
  rw [hnew]
  unfold SubMap.set
  split
  · rename_i h
    obtain ⟨rfl, rfl, rfl⟩ := h
    constructor
    · intro hw
      exact ⟨sub, topics, htok, rfl, by simp [hw]⟩
    · rintro ⟨sub', topics', htok', hnode, hm⟩
      obtain rfl : topics = topics' := (List.cons_eq_cons.mp hnode).2
      rwa [if_pos ⟨rfl, subTopicTokenise_inj htok' htok⟩] at hm
  · rename_i h
    rw [hold]
    constructor
    · rintro ⟨sub', topics', htok', rfl, hm⟩
      refine ⟨sub', topics', htok', rfl, ?_⟩
      rwa [if_neg]
      rintro ⟨rfl, rfl⟩
      rw [htok] at htok'
      simp only [Except.ok.injEq, Prod.mk.injEq] at htok'
      exact h ⟨by rw [htok'.1], htok'.2.symm, rfl⟩
    · rintro ⟨sub', topics', htok', rfl, hm⟩
      refine ⟨sub', topics', htok', rfl, ?_⟩
      rwa [if_neg] at hm
      rintro ⟨rfl, rfl⟩
      rw [htok] at htok'
      simp only [Except.ok.injEq, Prod.mk.injEq] at htok'
      exact h ⟨by rw [htok'.1], htok'.2.symm, rfl⟩

/-- A filter without an address is not in any leaf. -/
theorem rep_refused {t : SubTree} {m : SubMap} (hrep : Rep t m) {sub : Bytes} {rc : Rc}
    (htok : subTopicTokenise sub = .error rc) (c : CtxId) (w : Option (Qos × Nat)) :
    Rep t (m.set c sub w) := by
  refine ⟨hrep.ok, hrep.pruned, fun p s d v => (hrep.carries p s d v).trans ?_⟩
  have hset : ∀ sub' r, subTopicTokenise sub' = .ok r → m.set c sub w d sub' = m d sub' := by
    intro sub' r h
    refine if_neg ?_
    rintro ⟨-, rfl⟩
    rw [htok] at h
    cases h
  constructor
  · rintro ⟨sub', topics', h1, h2, h3⟩
    exact ⟨sub', topics', h1, h2, by rw [hset _ _ h1]; exact h3⟩
  · rintro ⟨sub', topics', h1, h2, h3⟩
    exact ⟨sub', topics', h1, h2, by rw [← hset _ _ h1]; exact h3⟩

section Steps

variable {ids : CtxId → Option Bytes} {protocol : CtxId → Protocol} {w : SubWorld} {m : SubMap}

theorem SubOp.Valid.length_le {op : SubOp} (hv : op.Valid) {topics : List Bytes}
    {share : Option Bytes} (h : subTopicTokenise op.sub = .ok (topics, share)) :
    ∀ l ∈ topics, l.length ≤ 65535 := fun _ hl =>
  (length_le_of_mem_topics h hl).trans (mosquittoSubTopicCheck_ok hv).2.1

/-- A tree grown by the nodes of one filter stays pruned when that filter has a
leaf. -/
theorem SubTree.pruned_add {t t' : SubTree} {node : Path} (share : Option Bytes)
    (hpr : t.Pruned []) (hhas : ∀ q, t'.has q ↔ t.has q ∨ (q ≠ [] ∧ q <+: node))
    (hmono : ∀ q s, t'.leaves q s = [] → t.leaves q s = []) (hleaf : t'.leaves node share ≠ []) :
    t'.Pruned [] := by
  intro q hlen hq hne hbare
  rcases (hhas q).mp hq with hold | ⟨-, r, rfl⟩
  · refine hpr q hlen hold hne ⟨fun l hl => hbare.1 l ((hhas _).mpr (.inl hl)), fun s => ?_⟩
    exact hmono q s (hbare.2 s)
  · rcases r with _ | ⟨l, r⟩
    · rw [List.append_nil] at hleaf
      exact hleaf (hbare.2 share)
    · refine hbare.1 l ((hhas _).mpr (.inr ⟨by simp, ?_⟩))
      exact ⟨r, by simp⟩

theorem rep_step (hids : DistinctIds ids) (hrep : Rep w.tree m) {op : SubOp} (hv : op.Valid) :
    Rep (w.step ids protocol op).tree (m.step op) := by
  cases op with
  | add c sub qos identifier options =>
    cases htok : subTopicTokenise sub with
    | error rc =>
      rw [(step_refused ids protocol c htok).1]
      exact rep_refused hrep htok c _
    | ok r =>
      obtain ⟨topics, share⟩ := r
      obtain ⟨hok, hhas, hleaves, -⟩ := step_add ids protocol c qos identifier options
        hrep.ok htok (hv.length_le htok)
      have hcar : ∀ d v, Carries (addLeaf ids c qos identifier options
          (w.tree.leaves (nodeOf topics) share)).2 d v ↔ _ := fun d v =>
        carries_addLeaf hids (hrep.ok.once (nodeOf topics) share) qos identifier options
      refine ⟨hok, ?_, rep_set htok hrep.carries fun p s d v => ?_⟩
      · refine SubTree.pruned_add share hrep.pruned hhas (fun q s hq => ?_) ?_
        · rw [hleaves] at hq
          split at hq
          · exact absurd hq (addLeaf_ne_nil (hids.named c))
          · exact hq
        · rw [hleaves, if_pos ⟨rfl, rfl⟩]
          exact addLeaf_ne_nil (hids.named c)
      · rw [hleaves]
        by_cases haddr : p = nodeOf topics ∧ s = share
        · rw [if_pos haddr, hcar, haddr.1, haddr.2]
          by_cases hd : d = c <;> simp [hd, eq_comm]
        · rw [if_neg haddr, if_neg fun h => haddr ⟨h.1, h.2.1⟩]
  | remove c sub =>
    cases htok : subTopicTokenise sub with
    | error rc =>
      rw [(step_refused ids protocol c htok).2]
      exact rep_refused hrep htok c _
    | ok r =>
      obtain ⟨topics, share⟩ := r
      obtain ⟨hok, -, hleaves, -, hpr⟩ := step_remove ids protocol c hrep.ok htok
      have hcar : ∀ d v, Carries (without c (w.tree.leaves (nodeOf topics) share)) d v ↔ _ :=
        fun d v => carries_without (hrep.ok.once (nodeOf topics) share)
      refine ⟨hok, hpr hrep.pruned, rep_set htok hrep.carries fun p s d v => ?_⟩
      rw [hleaves]
      by_cases haddr : p = nodeOf topics ∧ s = share
      · rw [if_pos haddr, hcar, haddr.1, haddr.2]
        by_cases hd : d = c <;> simp [hd]
      · rw [if_neg haddr, if_neg fun h => haddr ⟨h.1, h.2.1⟩]

theorem rep_run (hids : DistinctIds ids) {ops : List SubOp} (hv : ∀ op ∈ ops, op.Valid) :
    Rep (SubWorld.run ids protocol ops).tree (SubMap.run ops) := by
  induction ops using List.reverseRecOn with
  | nil => exact rep_init
  | append_singleton ops op ih =>
    simp only [SubWorld.run, SubMap.run, List.foldl_append, List.foldl_cons, List.foldl_nil]
    refine rep_step hids (ih fun op h => hv op ?_) (hv op ?_)
    · exact List.mem_append_left _ h
    · exact List.mem_append_right _ (List.mem_singleton.mpr rfl)

end Steps

/-- **The subscription tree refines a map.** For every history of `sub__add` and
`sub__remove`, the leaves are the subscriptions of the map with their QoS and
identifier, a client has one leaf at most at each address, no node below a root is
bare, and the two counters count the leaves. -/
theorem subTree_refines_map (ids : CtxId → Option Bytes) (protocol : CtxId → Protocol)
    (hids : DistinctIds ids) (ops : List SubOp) (hv : ∀ op ∈ ops, op.Valid) :
    let t := (SubWorld.run ids protocol ops).tree
    (∀ p share c qos identifier,
      (∃ leaf, t.IsLeaf p share leaf ∧ leaf.context = c ∧ leaf.qos = qos ∧
        leaf.identifier = identifier) ↔
      ∃ sub topics, subTopicTokenise sub = .ok (topics, share) ∧ p = nodeOf topics ∧
        SubMap.run ops c sub = some (qos, identifier)) ∧
    (∀ p share, ((t.leaves p share).map (·.context)).Nodup) ∧
    (∀ p, 1 < p.length → t.has p → t.isBare p = false) ∧
    t.subscriptionCount = t.total false ∧ t.sharedSubscriptionCount = t.total true := by
  intro t
  have hrep : Rep t (SubMap.run ops) := rep_run hids hv
  refine ⟨fun p share c qos identifier => ?_, hrep.ok.once, fun p hlen hp => ?_,
    hrep.ok.counted false, hrep.ok.counted true⟩
  · rw [← hrep.carries p share c (qos, identifier)]
    simp only [SubTree.isLeaf_iff hrep.ok]
    exact Iff.rfl
  · rw [← Bool.not_eq_true, SubTree.isBare_iff hrep.ok hp]
    refine hrep.pruned p hlen hp ?_
    rintro rfl
    simp at hlen

/-- Client `c` is called by `c` zero bytes. -/
theorem distinctIds_replicate : DistinctIds fun c => some (List.replicate c 0) where
  named := fun _ h => nomatch h
  inj := fun c d h => by simpa using congrArg List.length (Option.some.inj h)

/-- Two clients, a shared and a normal subscription to one node, and an
unsubscribe. -/
theorem subTree_refines_map_two :
    let ids : CtxId → Option Bytes := fun c => some (List.replicate c 0)
    let ops := [SubOp.add 0 (ascii "$share/g/a") .q1 7 0, .add 0 (ascii "a") .q0 0 0,
      .add 1 (ascii "a") .q2 3 0, .remove 0 (ascii "a")]
    (SubWorld.run ids (fun _ => .mqtt5) ops).tree.subscriptionCount =
      (SubWorld.run ids (fun _ => .mqtt5) ops).tree.total false ∧
    (SubWorld.run ids (fun _ => .mqtt5) ops).tree.total false = 1 :=
  ⟨(subTree_refines_map _ (fun _ => .mqtt5) distinctIds_replicate
    [SubOp.add 0 (ascii "$share/g/a") .q1 7 0, .add 0 (ascii "a") .q0 0 0,
      .add 1 (ascii "a") .q2 3 0, .remove 0 (ascii "a")] (by decide)).2.2.2.1, by decide⟩

end AdaptiveMqtt.Sub
