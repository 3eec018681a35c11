import AdaptiveMqtt.Broker.Steps
import AdaptiveMqtt.Topic.Match
import AdaptiveMqtt.Sub.Spec

/-!
# The retain tree

`retain__search` walks a tree of its own, level by level. For a filter whose `#` is last
it visits every node below the root whose levels match the filter, once, with one
exception: the parent match of `#` fails at the first level below the root if the node
has no children (`count_retainSearch`).

`Kept` says what a sequence of `retain__store` calls leaves: the nodes lie on the way to
the topics, and a node retains the last message of its topic.
-/

namespace AdaptiveMqtt.Broker

open Lib Topic AdaptiveMqtt.Sub Db

/-! ## The walk -/

section Walk

variable {children : Path → List Bytes}

/-- The node `p ++ r` can be reached from `p`. -/
def Below (children : Path → List Bytes) : Path → List Bytes → Prop
  | _, [] => True
  | p, t :: r => t ∈ children p ∧ Below children (p ++ [t]) r

instance (children : Path → List Bytes) : (p : Path) → (r : List Bytes) →
    Decidable (Below children p r)
  | _, [] => inferInstanceAs (Decidable True)
  | p, t :: r =>
    have := instDecidableBelow children (p ++ [t]) r
    inferInstanceAs (Decidable (t ∈ children p ∧ Below children (p ++ [t]) r))

theorem prefix_of_mem_retainHash {fuel : Nat} {p q : Path} (h : q ∈ retainHash children fuel p) :
    p <+: q := by
  induction fuel generalizing p with
  | zero => cases h
  | succ fuel ih =>
    simp only [retainHash, List.mem_flatMap, List.mem_cons] at h
    obtain ⟨t, -, rfl | h⟩ := h
    · exact List.prefix_append _ _
    · exact (List.prefix_append _ _).trans (ih h)

theorem count_branches {l : List Bytes} (hl : l.Nodup) {p : Path} {g : Bytes → List Path}
    (hg : ∀ t, ∀ q ∈ g t, p ++ [t] <+: q) (t : Bytes) (r : List Bytes) :
    (l.flatMap g).count (p ++ t :: r) = if t ∈ l then (g t).count (p ++ t :: r) else 0 := by
  have hne : ∀ x, x ≠ t → (g x).count (p ++ t :: r) = 0 := by
    intro x hx
    rw [List.count_eq_zero]
    intro hm
    have hpre := hg x _ hm
    rw [← List.singleton_append (l := r), ← List.append_assoc] at hpre
    have he := List.prefix_of_prefix_length_le hpre (List.prefix_append (p ++ [t]) r) (by simp)
    have := he.eq_of_length (by simp)
    simp only [List.append_cancel_left_eq, List.cons.injEq, and_true] at this
    exact hx this
  induction l with
  | nil => rfl
  | cons x l ih =>
    rw [List.nodup_cons] at hl
    rw [List.flatMap_cons, List.count_append, ih hl.2]
    by_cases hx : x = t
    · subst hx
      rw [if_neg hl.1, if_pos List.mem_cons_self, Nat.add_zero]
    · rw [hne x hx, Nat.zero_add]
      simp [Ne.symm hx]

theorem count_branches_nil {l : List Bytes} {p : Path} {g : Bytes → List Path}
    (hg : ∀ t, ∀ q ∈ g t, p ++ [t] <+: q) : (l.flatMap g).count p = 0 := by
  rw [List.count_eq_zero]
  intro hm
  obtain ⟨t, -, ht⟩ := List.mem_flatMap.mp hm
  have := (hg t p ht).length_le
  simp at this

/-- A final `#` visits every node below, once. -/
theorem count_retainHash (hnd : ∀ p, (children p).Nodup) : ∀ {fuel : Nat} {p : Path}
    {r : List Bytes}, (Below children p r → r.length ≤ fuel) →
    (retainHash children fuel p).count (p ++ r) = if r ≠ [] ∧ Below children p r then 1 else 0 := by
  have hg : ∀ (fuel : Nat) (p : Path) (t : Bytes),
      ∀ q ∈ (p ++ [t]) :: retainHash children fuel (p ++ [t]), p ++ [t] <+: q := by
    intro fuel p t q hq
    rcases List.mem_cons.mp hq with rfl | hq
    · exact List.prefix_refl _
    · exact prefix_of_mem_retainHash hq
  intro fuel
  induction fuel with
  | zero =>
    intro p r hr
    rw [if_neg fun h => h.1 (List.length_eq_zero_iff.mp (Nat.le_zero.mp (hr h.2)))]
    rfl
  | succ fuel ih =>
    intro p r hr
    rw [retainHash]
    rcases r with _ | ⟨t, r⟩
    · rw [List.append_nil, count_branches_nil (hg fuel p)]
      rfl
    · rw [count_branches (hnd p) (hg fuel p)]
      have hassoc : p ++ t :: r = p ++ [t] ++ r := by simp
      by_cases ht : t ∈ children p
      · rw [if_pos ht, List.count_cons, hassoc,
          ih fun h => Nat.le_of_succ_le_succ (hr ⟨ht, h⟩)]
        simp only [Below, ht, true_and, ne_eq, reduceCtorEq, not_false_eq_true]
        rcases r with _ | ⟨t', r⟩
        · simp [Below]
        · simp
      · rw [if_neg ht, if_neg fun h => ht h.2.1]

/-- What `retain__search` does at a branch that fits the first of the levels. -/
def retainVisit (children : Path → List Bytes) (fuel : Nat) (topics : List Bytes) (level : Nat)
    (branch : Path) : List Path :=
  match topics with
  | [] => [branch]
  | next :: _ =>
    let r := retainSearch children fuel topics (level + 1) branch
    r.2 ++ if r.1 = true ∨ (next = [hash] ∧ level > 0) then [branch] else []

/-- The branches that fit a level other than a final `#`. -/
def fitting (children : Path → List Bytes) (f : Bytes) (p : Path) : List Bytes :=
  if f = [plus] then children p else if (children p).elem f then [f] else []

theorem mem_fitting {f t : Bytes} {p : Path} :
    t ∈ fitting children f p ↔ t ∈ children p ∧ (f = [plus] ∨ f = t) := by
  unfold fitting
  by_cases hf : f = [plus]
  · rw [if_pos hf]
    exact ⟨fun h => ⟨h, .inl hf⟩, And.left⟩
  · rw [if_neg hf]
    split
    · rename_i hc
      rw [List.mem_singleton]
      exact ⟨fun h => ⟨h ▸ List.elem_iff.mp hc, .inr h.symm⟩, fun h => (h.2.resolve_left hf).symm⟩
    · rename_i hc
      exact ⟨fun h => absurd h List.not_mem_nil,
        fun h => absurd (List.elem_iff.mpr (h.2.resolve_left hf ▸ h.1)) hc⟩

theorem nodup_fitting {p : Path} (h : (children p).Nodup) (f : Bytes) :
    (fitting children f p).Nodup := by
  unfold fitting
  split
  · exact h
  · split
    · exact List.nodup_singleton f
    · exact List.nodup_nil

theorem retainSearch_hash (fuel level : Nat) (p : Path) :
    retainSearch children fuel [[hash]] level p =
      (!(children p).isEmpty, retainHash children fuel p) :=
  if_pos ⟨rfl, rfl⟩

theorem retainSearch_cons {f : Bytes} {fs : List Bytes} (hf : ¬ (f = [hash] ∧ fs = []))
    (fuel level : Nat) (p : Path) : retainSearch children fuel (f :: fs) level p =
      (false, (fitting children f p).flatMap fun t =>
        retainVisit children fuel fs level (p ++ [t])) := by
  refine (if_neg hf).trans ?_
  unfold fitting
  by_cases hp : f = [plus]
  · rw [if_pos hp, if_pos hp]
    rfl
  · rw [if_neg hp, if_neg hp]
    by_cases hc : f ∈ children p
    · rw [if_pos (List.elem_iff.mpr hc), List.flatMap_singleton]
      exact congrArg (Prod.mk false) (if_pos hc)
    · rw [if_neg (mt List.elem_iff.mp hc)]
      exact congrArg (Prod.mk false) (if_neg hc)

theorem prefix_of_mem_retainVisit {fuel level : Nat} {fs : List Bytes} {p q : Path}
    (h : q ∈ retainVisit children fuel fs level p) : p <+: q := by
  induction fs generalizing level p with
  | nil => exact List.mem_singleton.mp h ▸ List.prefix_refl _
  | cons f fs ih =>
    rw [retainVisit, List.mem_append] at h
    rcases h with h | h
    · by_cases hf : f = [hash] ∧ fs = []
      · rw [hf.1, hf.2, retainSearch_hash] at h
        exact prefix_of_mem_retainHash h
      · rw [retainSearch_cons hf] at h
        obtain ⟨t, -, ht⟩ := List.mem_flatMap.mp h
        exact (List.prefix_append p [t]).trans (ih ht)
    · split at h
      · exact List.mem_singleton.mp h ▸ List.prefix_refl _
      · cases h

/-- The one match `retain__search` misses: the parent match of `#` right below the root,
at a node without children. -/
def Missed (children : Path → List Bytes) (fs : List Bytes) (level : Nat) (p : Path)
    (r : List Bytes) : Prop :=
  level = 0 ∧ fs.tail = [[hash]] ∧ r.tail = [] ∧ children (p ++ r) = []

instance (fs : List Bytes) (level : Nat) (p : Path) (r : List Bytes) :
    Decidable (Missed children fs level p r) :=
  inferInstanceAs (Decidable (_ ∧ _ ∧ _ ∧ _))

theorem count_retainVisit {fuel level : Nat} {fs : List Bytes} {p : Path} {r : List Bytes}
    (hlast : ∀ pre post, fs = pre ++ [hash] :: post → post = [])
    (hsearch : fs ≠ [] → (retainSearch children fuel fs (level + 1) p).2.count (p ++ r) =
      if r ≠ [] ∧ Below children p r ∧ levelMatch fs r then 1 else 0) :
    (retainVisit children fuel fs level p).count (p ++ r) =
      if Below children p r ∧ levelMatch fs r ∧
        ¬ (level = 0 ∧ fs = [[hash]] ∧ r = [] ∧ children p = []) then 1 else 0 := by
  rcases fs with _ | ⟨next, fs⟩
  · rcases r with _ | ⟨t, r⟩
    · simp [retainVisit, Below]
    · simp [retainVisit]
  · rw [retainVisit, List.count_append, hsearch (List.cons_ne_nil _ _)]
    rcases r with _ | ⟨t, r⟩
    · rw [List.append_nil, if_neg fun h => h.1 rfl, Nat.zero_add]
      by_cases hf : next = [hash]
      · -- the parent match
        obtain rfl : fs = [] := hlast [] fs (by rw [hf]; rfl)
        subst hf
        rw [retainSearch_hash]
        by_cases hl : level = 0 <;> by_cases hc : children p = [] <;>
          simp [hl, hc, Below, Nat.pos_iff_ne_zero]
      · rw [retainSearch_cons fun h => hf h.1, levelMatch_cons_nil hf]
        simp [hf]
    · have hne : ∀ l : List Path, l = [p] ∨ l = [] → l.count (p ++ t :: r) = 0 := by
        rintro l (rfl | rfl)
        · simp
        · rfl
      rw [hne _ (by split <;> simp), Nat.add_zero]
      simp

/-- **The walk visits what matches, once**, the missed match aside. -/
theorem count_retainSearch (hnd : ∀ p, (children p).Nodup) {fuel : Nat} : ∀ {fs : List Bytes}
    (level : Nat) {p : Path} {r : List Bytes},
    (∀ pre post, fs = pre ++ [hash] :: post → post = []) → fs ≠ [] →
    (Below children p r → r.length ≤ fuel) →
    (retainSearch children fuel fs level p).2.count (p ++ r) =
      if r ≠ [] ∧ Below children p r ∧ levelMatch fs r ∧ ¬ Missed children fs level p r then 1
      else 0 := by
  intro fs
  induction fs with
  | nil => exact fun _ _ _ _ h => absurd rfl h
  | cons f fs ih =>
    intro level p r hlast _ hr
    by_cases hf : f = [hash]
    · -- a final `#`
      obtain rfl : fs = [] := hlast [] fs (by rw [hf]; rfl)
      subst hf
      rw [retainSearch_hash, count_retainHash hnd hr]
      simp [Missed]
    · rw [retainSearch_cons fun h => hf h.1]
      have hg : ∀ t, ∀ q ∈ retainVisit children fuel fs level (p ++ [t]), p ++ [t] <+: q :=
        fun t q hq => prefix_of_mem_retainVisit hq
      rcases r with _ | ⟨t, r⟩
      · rw [List.append_nil, count_branches_nil hg]
        rfl
      · rw [count_branches (nodup_fitting (hnd p) f) hg]
        have hassoc : p ++ t :: r = p ++ [t] ++ r := by simp
        rw [levelMatch_cons hf]
        by_cases ht : t ∈ fitting children f p
        · rw [if_pos ht, hassoc]
          obtain ⟨ht, hft⟩ := mem_fitting.mp ht
          have hlast' : ∀ pre post, fs = pre ++ [hash] :: post → post = [] :=
            fun pre post h => hlast (f :: pre) post (by rw [h]; rfl)
          have hr' : Below children (p ++ [t]) r → r.length ≤ fuel :=
            fun h => Nat.le_of_succ_le (hr ⟨ht, h⟩)
          rw [count_retainVisit hlast' fun hfs => by rw [ih _ hlast' hfs hr']; simp [Missed]]
          have hend : (r = [] ∧ children (p ++ t :: r) = []) ↔
              (r = [] ∧ children (p ++ [t]) = []) :=
            and_congr_right fun h => by rw [h]
          simp only [Below, Missed, List.tail_cons]
          refine if_congr ?_ rfl rfl
          rw [hend]
          simp only [ht, hft, ne_eq, reduceCtorEq, not_false_eq_true, true_and, decide_true,
            Bool.true_and]
        · rw [if_neg ht, if_neg]
          rintro ⟨-, hb, hm, -⟩
          simp only [Bool.and_eq_true, decide_eq_true_eq] at hm
          exact ht (mem_fitting.mpr ⟨hb.1, hm.1⟩)

theorem prefix_of_mem_retainSearch {fuel level : Nat} {fs : List Bytes} {p q : Path}
    (h : q ∈ (retainSearch children fuel fs level p).2) : p <+: q := by
  rcases fs with _ | ⟨f, fs⟩
  · cases h
  · by_cases hf : f = [hash] ∧ fs = []
    · rw [hf.1, hf.2, retainSearch_hash] at h
      exact prefix_of_mem_retainHash h
    · rw [retainSearch_cons hf] at h
      obtain ⟨t, -, ht⟩ := List.mem_flatMap.mp h
      exact (List.prefix_append p [t]).trans (prefix_of_mem_retainVisit ht)

end Walk

/-! ## The tree -/

section Tree

def hasNode (retains : Heap Path RetainHier) (p : Path) : Prop := (retains.get p).isSome = true

instance (retains : Heap Path RetainHier) (p : Path) : Decidable (hasNode retains p) :=
  inferInstanceAs (Decidable (_ = true))

def childrenOf (retains : Heap Path RetainHier) (p : Path) : List Bytes :=
  ((retains.get p).map (·.children)).getD []

/-- The children of a node are the nodes one level below it. -/
structure Grown (retains : Heap Path RetainHier) : Prop where
  nodup : ∀ p, (childrenOf retains p).Nodup
  child : ∀ p t, p ≠ [] → (t ∈ childrenOf retains p ↔ hasNode retains (p ++ [t]))
  root : ¬ hasNode retains []

variable {retains : Heap Path RetainHier}

theorem not_hasNode {p : Path} : ¬ hasNode retains p ↔ retains.get p = none :=
  Option.not_isSome_iff_eq_none

theorem childrenOf_none {p : Path} (h : ¬ hasNode retains p) : childrenOf retains p = [] := by
  rw [childrenOf, not_hasNode.mp h]
  rfl

theorem Grown.parent (hg : Grown retains) {p : Path} {t : Bytes} (hp : p ≠ [])
    (h : hasNode retains (p ++ [t])) : hasNode retains p := by
  by_contra hn
  have := (hg.child p t hp).mpr h
  rw [childrenOf_none hn] at this
  cases this

theorem Grown.above (hg : Grown retains) {p : Path} (hp : p ≠ []) (r : List Bytes)
    (h : hasNode retains (p ++ r)) : hasNode retains p := by
  induction r using List.reverseRecOn with
  | nil => exact (List.append_nil p) ▸ h
  | append_singleton r t ih =>
    rw [← List.append_assoc] at h
    exact ih (hg.parent (List.append_ne_nil_of_left_ne_nil hp r) h)

theorem Grown.below_iff (hg : Grown retains) {p : Path} (hp : hasNode retains p) (r : List Bytes) :
    Below (childrenOf retains) p r ↔ hasNode retains (p ++ r) := by
  induction r generalizing p with
  | nil => simpa [Below] using hp
  | cons t r ih =>
    have hne : p ≠ [] := fun h => hg.root (h ▸ hp)
    have hassoc : p ++ t :: r = p ++ [t] ++ r := by simp
    rw [Below, hg.child p t hne, hassoc]
    constructor
    · rintro ⟨ht, hr⟩
      exact (ih ht).mp hr
    · intro h
      have ht := hg.above (by simp) r h
      exact ⟨ht, (ih ht).mpr h⟩

/-- The nodes on the way to a node are as many as its levels. -/
theorem Grown.depth_le (hg : Grown retains) {p : Path} (hp : p ≠ []) {r : List Bytes}
    (h : hasNode retains (p ++ r)) : r.length ≤ retains.keys.length := by
  refine Heap.length_le_keys retains p r fun i _ => ?_
  rw [Heap.mem_keys_iff, ← Option.isSome_iff_exists]
  refine hg.above (List.append_ne_nil_of_left_ne_nil hp _) (r.drop i) ?_
  rw [List.append_assoc, List.take_append_drop]
  exact h

theorem get_retainAddHierEntry {p : Path} (t : Bytes) (hnew : ¬ hasNode retains (p ++ [t]))
    (q : Path) : (retainAddHierEntry retains (p ++ [t])).get q =
      if q = p ++ [t] then some ⟨none, []⟩
      else if q = p then (retains.get p).map fun h => { h with children := h.children ++ [t] }
      else retains.get q := by
  unfold retainAddHierEntry
  rw [not_hasNode.mp hnew]
  simp only [List.dropLast_concat, List.getLast?_concat, Option.toList_some]
  rw [Heap.get_set, Heap.get_modify]

theorem retainAddHierEntry_old {p : Path} (h : hasNode retains p) :
    retainAddHierEntry retains p = retains := by
  obtain ⟨n, hn⟩ := Option.isSome_iff_exists.mp h
  rw [retainAddHierEntry, hn]

theorem hasNode_retainAddHierEntry (p : Path) (t : Bytes) (q : Path) :
    hasNode (retainAddHierEntry retains (p ++ [t])) q ↔ hasNode retains q ∨ q = p ++ [t] := by
  by_cases hnew : hasNode retains (p ++ [t])
  · rw [retainAddHierEntry_old hnew]
    exact ⟨.inl, fun h => h.elim id fun e => e ▸ hnew⟩
  · rw [hasNode, get_retainAddHierEntry t hnew]
    by_cases hq : q = p ++ [t]
    · simp [hq]
    · rw [if_neg hq]
      by_cases hp : q = p
      · simp [hp, hasNode]
      · simp [hp, hq, hasNode]

theorem childrenOf_retainAddHierEntry {p : Path} {t : Bytes} (hnew : ¬ hasNode retains (p ++ [t]))
    (q : Path) : childrenOf (retainAddHierEntry retains (p ++ [t])) q =
      childrenOf retains q ++ if q = p ∧ (retains.get p).isSome then [t] else [] := by
  rw [childrenOf, get_retainAddHierEntry t hnew]
  by_cases hq : q = p ++ [t]
  · have hqp : q ≠ p := fun h => by simp [h] at hq
    rw [if_pos hq, if_neg fun h => hqp h.1, childrenOf_none (hq ▸ hnew)]
    rfl
  · rw [if_neg hq]
    by_cases hp : q = p
    · subst hp
      cases hg : retains.get q <;> simp [childrenOf, hg]
    · simp [hp, childrenOf]

theorem grown_retainAddHierEntry (hg : Grown retains) {p : Path} (hp : p = [] ∨ hasNode retains p)
    (t : Bytes) : Grown (retainAddHierEntry retains (p ++ [t])) := by
  by_cases hnew : hasNode retains (p ++ [t])
  · rw [retainAddHierEntry_old hnew]
    exact hg
  · refine ⟨fun q => ?_, fun q u hq => ?_, ?_⟩
    · rw [childrenOf_retainAddHierEntry hnew]
      split
      · rename_i h
        have hne : p ≠ [] := fun e => hg.root (e ▸ h.2)
        rw [h.1, List.nodup_append]
        refine ⟨hg.nodup p, List.nodup_singleton t, ?_⟩
        intro a ha b hb e
        rw [List.mem_singleton.mp hb] at e
        exact hnew ((hg.child p t hne).mp (e ▸ ha))
      · rw [List.append_nil]
        exact hg.nodup q
    · rw [childrenOf_retainAddHierEntry hnew, hasNode_retainAddHierEntry, List.mem_append,
        hg.child q u hq]
      refine or_congr Iff.rfl ?_
      by_cases hqp : q = p
      · have hpn : hasNode retains p := hp.resolve_left (hqp ▸ hq)
        rw [if_pos ⟨hqp, hpn⟩, hqp]
        simp
      · rw [if_neg fun h => hqp h.1]
        refine ⟨fun h => absurd h List.not_mem_nil,
          fun h => absurd (List.append_inj' h rfl).1 hqp⟩
    · rw [hasNode_retainAddHierEntry]
      rintro (h | h)
      · exact hg.root h
      · simp at h

theorem hasNode_root (x : Bytes) (q : Path) :
    hasNode (retainAddHierEntry retains [x]) q ↔ hasNode retains q ∨ q = [x] :=
  hasNode_retainAddHierEntry [] x q

theorem grown_root (hg : Grown retains) (x : Bytes) : Grown (retainAddHierEntry retains [x]) :=
  grown_retainAddHierEntry hg (.inl rfl) x

theorem hasNode_retainBranches (topics : List Bytes) {p q : Path} (hp : hasNode retains p) :
    hasNode (retainBranches topics p retains) q ↔
      hasNode retains q ∨ (p <+: q ∧ q <+: p ++ topics) := by
  induction topics generalizing p retains with
  | nil =>
    rw [retainBranches, List.append_nil]
    refine ⟨.inl, fun h => h.elim id fun h => ?_⟩
    exact (h.2.eq_of_length_le h.1.length_le) ▸ hp
  | cons topic topics ih =>
    have hnode : hasNode (retainAddHierEntry retains (p ++ [topic])) (p ++ [topic]) :=
      (hasNode_retainAddHierEntry p topic _).mpr (.inr rfl)
    have hassoc : p ++ topic :: topics = p ++ [topic] ++ topics := by simp
    rw [retainBranches, ih hnode, hasNode_retainAddHierEntry, hassoc]
    constructor
    · rintro ((h | rfl) | ⟨h, h'⟩)
      · exact .inl h
      · exact .inr ⟨List.prefix_append p [topic], List.prefix_append _ topics⟩
      · exact .inr ⟨(List.prefix_append p [topic]).trans h, h'⟩
    · rintro (h | ⟨⟨u, rfl⟩, h⟩)
      · exact .inl (.inl h)
      · rcases u with _ | ⟨t, u⟩
        · exact .inl (.inl ((List.append_nil p).symm ▸ hp))
        · rw [← hassoc, List.prefix_append_right_inj, List.cons_prefix_cons] at h
          obtain ⟨rfl, h⟩ := h
          refine .inr ⟨⟨u, by simp⟩, ?_⟩
          rw [← hassoc, List.prefix_append_right_inj, List.cons_prefix_cons]
          exact ⟨rfl, h⟩

theorem grown_retainBranches (hg : Grown retains) (topics : List Bytes) {p : Path}
    (hp : hasNode retains p) : Grown (retainBranches topics p retains) := by
  induction topics generalizing p retains with
  | nil => exact hg
  | cons topic topics ih =>
    exact ih (grown_retainAddHierEntry hg (.inr hp) topic)
      ((hasNode_retainAddHierEntry p topic _).mpr (.inr rfl))

theorem hasNode_set {p : Path} {n : RetainHier} (hp : hasNode retains p) (q : Path) :
    hasNode (retains.set p n) q ↔ hasNode retains q := by
  rw [hasNode, Heap.get_set]
  split
  · rename_i h
    exact ⟨fun _ => h ▸ hp, fun _ => rfl⟩
  · rfl

/-- Writing to a node does not move it. -/
theorem grown_set (hg : Grown retains) {p : Path} {n : RetainHier} (hn : retains.get p = some n)
    (r : Option MsgStore) : Grown (retains.set p { n with retained := r }) := by
  have hp : hasNode retains p := Option.isSome_iff_exists.mpr ⟨n, hn⟩
  have hkids : ∀ q, childrenOf (retains.set p { n with retained := r }) q = childrenOf retains q := by
    intro q
    rw [childrenOf, Heap.get_set]
    split
    · rename_i h
      rw [h, childrenOf, hn]
      rfl
    · rfl
  refine ⟨fun q => hkids q ▸ hg.nodup q, fun q t hq => ?_, fun h => hg.root ((hasNode_set hp _).mp h)⟩
  rw [hkids, hasNode_set hp]
  exact hg.child q t hq

end Tree

/-! ## The stores -/

/-- `retain__store`, with the tokens `sub__messages_queue` gives it. -/
def retainPublish (b : State) (op : Bytes × MsgStore) : State :=
  match subTopicTokenise op.1 with
  | .error _ => b
  | .ok (splitTopics, _) => retainStore op.2 splitTopics b

/-- A sequence of calls of `retain__store`. -/
def retainRun (ops : List (Bytes × MsgStore)) (b : State) : State := ops.foldl retainPublish b

def PubTopic (topic : Bytes) : Prop :=
  topic ≠ [] ∧ mosquittoPubTopicCheck topic = Rc.success ∧
    (levels topic).head? ≠ some (ascii "$share")

instance (topic : Bytes) : Decidable (PubTopic topic) := inferInstanceAs (Decidable (_ ∧ _ ∧ _))

/-- The message of the last publish to a topic, unless that had no payload. -/
def lastRetained (ops : List (Bytes × MsgStore)) (topic : Bytes) : Option MsgStore :=
  (ops.reverse.find? fun op => op.1 = topic).bind fun op =>
    if op.2.payloadlen ≠ 0 then some op.2 else none

theorem PubTopic.tokenise {topic : Bytes} (h : PubTopic topic) :
    subTopicTokenise topic = .ok (tokens topic, none) := by
  rw [subTopicTokenise_eq h.1, if_neg h.2.2]

/-- Different topics have different nodes. -/
theorem nodeOf_tokens_inj {topic topic' : Bytes}
    (h : nodeOf (tokens topic) = nodeOf (tokens topic')) : topic = topic' :=
  tokens_inj (List.cons_eq_cons.mp h).2

/-- The tree after a sequence of stores: its nodes lie on the way to the topics, and what
a node retains is the last message of its topic. -/
structure Kept (ops : List (Bytes × MsgStore)) (b : State) : Prop where
  grown : Grown b.retains
  node : ∀ q, hasNode b.retains q ↔ (q ≠ [] ∧ ∃ op ∈ ops, q <+: nodeOf (tokens op.1)) ∨
    q = [[]] ∨ q = [ascii "$SYS"]
  retained : ∀ q s, b.retainedAt q = some s ↔
    ∃ topic, q = nodeOf (tokens topic) ∧ lastRetained ops topic = some s

theorem kept_init {b : State} (h : b.retains = retainInit) : Kept [] b := by
  have hempty : Grown ∅ := ⟨fun _ => List.nodup_nil, fun _ _ _ => ⟨nofun, nofun⟩, nofun⟩
  have hnone : ∀ q, b.retainedAt q = none := by
    intro q
    rw [State.retainedAt, h, retainInit, (retainAddHierEntry_spec _ _).1,
      (retainAddHierEntry_spec _ _).1]
    rfl
  refine ⟨h ▸ grown_root (grown_root hempty []) (ascii "$SYS"), fun q => ?_, fun q s => ?_⟩
  · rw [h, retainInit, hasNode_root, hasNode_root, or_assoc]
    refine or_congr ⟨fun h => absurd h Bool.false_ne_true, ?_⟩ Iff.rfl
    rintro ⟨-, op, hop, -⟩
    cases hop
  · rw [hnone]
    simp [lastRetained]

theorem lastRetained_append (ops : List (Bytes × MsgStore)) (op : Bytes × MsgStore)
    (topic : Bytes) : lastRetained (ops ++ [op]) topic =
      if op.1 = topic then (if op.2.payloadlen ≠ 0 then some op.2 else none)
      else lastRetained ops topic := by
  unfold lastRetained
  rw [List.reverse_append, List.reverse_singleton, List.singleton_append, List.find?_cons]
  split
  · rename_i h
    rw [if_pos (of_decide_eq_true h)]
    rfl
  · rename_i h
    rw [if_neg (of_decide_eq_false h)]

theorem mem_of_lastRetained {ops : List (Bytes × MsgStore)} {topic : Bytes}
    (h : (lastRetained ops topic).isSome = true) : ∃ op ∈ ops, op.1 = topic := by
  unfold lastRetained at h
  cases hop : ops.reverse.find? fun op => op.1 = topic with
  | none => rw [hop] at h; cases h
  | some op =>
    have hfound := List.find?_some hop
    exact ⟨op, List.mem_reverse.mp (List.mem_of_find?_eq_some hop), of_decide_eq_true hfound⟩

theorem setRetained_retains {b : State} {p : Path} {n : RetainHier} (hn : b.retains.get p = some n)
    (stored : Option MsgStore) :
    (setRetained p stored b).retains = b.retains.set p { n with retained := stored } := by
  rw [setRetained, hn]

theorem retainedAt_setRetained {b : State} {p : Path} (hp : hasNode b.retains p)
    (stored : Option MsgStore) (q : Path) :
    (setRetained p stored b).retainedAt q = if q = p then stored else b.retainedAt q := by
  obtain ⟨n, hn⟩ := Option.isSome_iff_exists.mp hp
  rw [State.retainedAt, setRetained_retains hn, Heap.get_set]
  split <;> rfl

theorem retainStore_tree {b : State} (hg : Grown b.retains) (stored : MsgStore)
    (splitTopics : List Bytes) :
    Grown (retainStore stored splitTopics b).retains ∧
    (∀ q, hasNode (retainStore stored splitTopics b).retains q ↔
      hasNode b.retains q ∨ (q ≠ [] ∧ q <+: nodeOf splitTopics)) ∧
    ∀ q, (retainStore stored splitTopics b).retainedAt q =
      if q = nodeOf splitTopics then (if stored.payloadlen ≠ 0 then some stored else none)
      else b.retainedAt q := by
  have hr : hasNode (retainAddHierEntry b.retains [splitTopics.headD []])
      [splitTopics.headD []] := (hasNode_root _ _).mpr (.inr rfl)
  obtain ⟨hret, -, hroot⟩ := retainAddHierEntry_spec b.retains [splitTopics.headD []]
  obtain ⟨hret', -, n, hn⟩ := retainBranches_spec splitTopics [splitTopics.headD []] _ hroot
  have hgrown := grown_retainBranches (grown_root hg (splitTopics.headD [])) splitTopics hr
  have hnodes := fun q => hasNode_retainBranches splitTopics (q := q) hr
  rw [retainStore]
  generalize retainBranches splitTopics [splitTopics.headD []]
    (retainAddHierEntry b.retains [splitTopics.headD []]) = retains at hret' hn hgrown hnodes
  have hlast : hasNode retains (nodeOf splitTopics) := Option.isSome_iff_exists.mpr ⟨n, hn⟩
  rw [setRetained_retains hn]
  refine ⟨grown_set hgrown hn _, fun q => ?_, fun q => ?_⟩
  · refine (hasNode_set hlast q).trans ?_
    rw [hnodes, hasNode_root, or_assoc]
    refine or_congr Iff.rfl ⟨?_, ?_⟩
    · rintro (rfl | ⟨⟨u, rfl⟩, h⟩)
      · exact ⟨List.cons_ne_nil _ _, List.prefix_append _ splitTopics⟩
      · exact ⟨List.cons_ne_nil _ _, h⟩
    · rintro ⟨hne, h⟩
      obtain ⟨x, u, rfl⟩ := List.exists_cons_of_ne_nil hne
      obtain ⟨rfl, -⟩ := List.cons_prefix_cons.mp h
      exact .inr ⟨List.prefix_append _ u, h⟩
  · refine (retainedAt_setRetained hlast _ q).trans ?_
    congr 1
    exact (hret' q).trans (hret q)

theorem kept_retainPublish {ops : List (Bytes × MsgStore)} {b : State} (hk : Kept ops b)
    {op : Bytes × MsgStore} (hop : PubTopic op.1) :
    Kept (ops ++ [op]) (retainPublish b op) := by
  have heq : retainPublish b op = retainStore op.2 (tokens op.1) b := by
    rw [retainPublish, hop.tokenise]
  obtain ⟨hgrown, hnode, hretained⟩ := retainStore_tree hk.grown op.2 (tokens op.1)
  rw [heq]
  refine ⟨hgrown, fun q => ?_, fun q s => ?_⟩
  · rw [hnode, hk.node]
    simp only [List.mem_append, List.mem_singleton, or_and_right, exists_or, exists_eq_left,
      and_or_left]
    exact or_right_comm
  · rw [hretained]
    by_cases hq : q = nodeOf (tokens op.1)
    · rw [if_pos hq]
      constructor
      · intro hs
        exact ⟨op.1, hq, by rw [lastRetained_append, if_pos rfl, hs]⟩
      · rintro ⟨topic, ht, hs⟩
        rw [lastRetained_append, if_pos (nodeOf_tokens_inj (hq.symm.trans ht))] at hs
        exact hs
    · rw [if_neg hq, hk.retained]
      refine exists_congr fun topic => and_congr_right fun ht => ?_
      have hne : op.1 ≠ topic := by
        rintro rfl
        exact hq ht
      rw [lastRetained_append, if_neg hne]

theorem kept_retainRun {b : State} (h : b.retains = retainInit) {ops : List (Bytes × MsgStore)}
    (hops : ∀ op ∈ ops, PubTopic op.1) : Kept ops (retainRun ops b) := by
  induction ops using List.reverseRecOn with
  | nil => exact kept_init h
  | append_singleton ops op ih =>
    have hops' : ∀ op ∈ ops, PubTopic op.1 := fun op h => hops op (List.mem_append_left _ h)
    rw [retainRun, List.foldl_append]
    exact kept_retainPublish (ih hops') (hops op (by simp))

end AdaptiveMqtt.Broker
