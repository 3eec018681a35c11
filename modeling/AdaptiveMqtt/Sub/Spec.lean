import AdaptiveMqtt.Sub.Leaves

/-!
# What `sub__add` and `sub__remove` do

Both functions change one leaf list, the one at the node of the filter
(`nodeOf`) and the group it names, and at most one slot of the client's `subs`
array. `subAdd_spec` and `subRemove_spec` say which; the nodes created on the way
down and freed on the way up carry no leaf.
-/

namespace AdaptiveMqtt.Sub

open Lib Topic

/-- The node a filter leads to: its root and one node per token. -/
def nodeOf (topics : List Bytes) : Path := topics.headD [] :: topics

section Add

variable (ids : CtxId → Option Bytes)

def newLeaf (context : CtxId) (qos : Qos) (identifier : Nat) (options : UInt8) : SubLeaf :=
  { context, qos, identifier
    noLocal := options &&& 0x04 ≠ 0
    retainAsPublished := options &&& 0x08 ≠ 0 }

/-- The leaf belongs to a client with the id of `context`. -/
def sameClient (context : CtxId) (leaf : SubLeaf) : Prop :=
  ids leaf.context ≠ none ∧ ids leaf.context = ids context

variable {ids} {context : CtxId} {qos : Qos} {identifier : Nat} {options : UInt8}
  {ls : List SubLeaf}

theorem subAddLeaf_cases (ids : CtxId → Option Bytes) (context : CtxId) (qos : Qos)
    (identifier : Nat) (options : UInt8) (ls : List SubLeaf) :
    (∃ pre leaf post, ls = pre ++ leaf :: post ∧ sameClient ids context leaf ∧
      (∀ x ∈ pre, ¬ sameClient ids context x) ∧
      subAddLeaf ids context qos identifier options ls =
        (Rc.subExists, pre ++ { leaf with qos, identifier } :: post)) ∨
    ((∀ x ∈ ls, ¬ sameClient ids context x) ∧
      subAddLeaf ids context qos identifier options ls =
        (Rc.success, ls ++ [newLeaf context qos identifier options])) := by
  induction ls with
  | nil => exact .inr ⟨(fun _ h => nomatch h), rfl⟩
  | cons a ls ih =>
    unfold subAddLeaf
    split
    · rename_i h
      exact .inl ⟨[], a, ls, rfl, h, (fun _ h => nomatch h), rfl⟩
    · rename_i h
      rcases ih with ⟨pre, leaf, post, rfl, hs, hpre, hr⟩ | ⟨hno, hr⟩
      · refine .inl ⟨a :: pre, leaf, post, rfl, hs, ?_, by rw [hr]; rfl⟩
        intro x hx
        rcases List.mem_cons.mp hx with rfl | hx
        · exact h
        · exact hpre x hx
      · refine .inr ⟨?_, by rw [hr]; rfl⟩
        intro x hx
        rcases List.mem_cons.mp hx with rfl | hx
        · exact h
        · exact hno x hx

theorem subAddLeaf_ne_nil : (subAddLeaf ids context qos identifier options ls).2 ≠ [] := by
  rcases subAddLeaf_cases ids context qos identifier options ls with
    ⟨pre, leaf, post, -, -, -, hr⟩ | ⟨-, hr⟩ <;> simp [hr]

theorem subAddLeaf_nodup (hid : ids context ≠ none) (hnd : (ls.map (·.context)).Nodup) :
    ((subAddLeaf ids context qos identifier options ls).2.map (·.context)).Nodup := by
  rcases subAddLeaf_cases ids context qos identifier options ls with
    ⟨pre, leaf, post, rfl, -, -, hr⟩ | ⟨hno, hr⟩
  · rw [hr]
    simpa using hnd
  · rw [hr, List.map_append, List.nodup_append]
    refine ⟨hnd, by simp, ?_⟩
    rintro c hc d hd rfl
    obtain ⟨x, hx, rfl⟩ := List.mem_map.mp hc
    have hd : x.context = context := by simpa [newLeaf] using hd
    exact hno x hx ⟨hd ▸ hid, by rw [hd]⟩

theorem subAddLeaf_length :
    ((subAddLeaf ids context qos identifier options ls).2.length : Int) =
      ls.length + if (subAddLeaf ids context qos identifier options ls).1 ≠ Rc.subExists then 1
        else 0 := by
  rcases subAddLeaf_cases ids context qos identifier options ls with
    ⟨pre, leaf, post, rfl, -, -, hr⟩ | ⟨-, hr⟩ <;> simp [hr]

def subAddAt (ids : CtxId → Option Bytes) (context : CtxId) (protocol : Protocol) (sub : Bytes)
    (qos : Qos) (identifier : Nat) (options : UInt8) (subhier : Path) (share : Option Bytes)
    (st : SubSt) : Rc × SubSt :=
  match share with
  | some name => subAddShared ids context protocol sub qos identifier options subhier name st
  | none => subAddNormal ids context protocol sub qos identifier options subhier st

theorem subAddAt_spec (protocol : Protocol) (sub : Bytes) (qos : Qos) (identifier : Nat)
    (options : UInt8) {p : Path} (share : Option Bytes) {st : SubSt} (hok : st.tree.Ok)
    (hp : st.tree.has p) (hid : ids context ≠ none) :
    let r := subAddLeaf ids context qos identifier options (st.tree.leaves p share)
    let st' := (subAddAt ids context protocol sub qos identifier options p share st).2
    SubTree.Rewrite st.tree st'.tree p share r.2 ∧
      st'.subs = if r.1 ≠ Rc.subExists then takeSlot ⟨p, share, sub⟩ st.subs else st.subs := by
  intro r st'
  obtain ⟨h, hg⟩ := SubTree.has_iff.mp hp
  have hnd : (r.2.map (·.context)).Nodup := subAddLeaf_nodup hid (hok.once p share)
  have hlen : (r.2.length : Int) = (st.tree.leaves p share).length +
      if r.1 ≠ Rc.subExists then 1 else 0 := subAddLeaf_length
  have hleaves := SubTree.leaves_of_get hg share
  cases share with
  | none =>
    have hr : r = subAddLeaf ids context qos identifier options h.subs := by
      show subAddLeaf _ _ _ _ _ _ = _
      rw [hleaves]
      rfl
    have hst : st' = (subAddNormal ids context protocol sub qos identifier options p st).2 := rfl
    unfold subAddNormal at hst
    simp only [hg, ← hr] at hst
    have he := SubHier.edit_normal (hok.node p h hg) r.2
    by_cases hex : r.1 = Rc.subExists
    · rw [if_neg (not_not.mpr hex)] at hst
      rw [if_neg (not_not.mpr hex)] at hlen ⊢
      rw [hst]
      refine ⟨SubTree.rewrite_set hok hg he rfl hnd ?_, rfl⟩
      intro b
      cases b
      · show st.tree.subscriptionCount + _ = st.tree.subscriptionCount + _
        simp only [Option.isSome_none, if_true]
        omega
      · rfl
    · rw [if_pos hex] at hst
      rw [if_pos hex] at hlen ⊢
      rw [hst]
      refine ⟨SubTree.rewrite_set hok hg he rfl hnd ?_, rfl⟩
      intro b
      cases b
      · show st.tree.subscriptionCount + 1 + _ = st.tree.subscriptionCount + _
        simp only [Option.isSome_none, if_true]
        omega
      · rfl
  | some name =>
    have hst : st' = (subAddShared ids context protocol sub qos identifier options p name st).2 :=
      rfl
    unfold subAddShared at hst
    simp only [hg] at hst
    have hne : r.2 ≠ [] := subAddLeaf_ne_nil
    obtain ⟨h', he, hmem⟩ : ∃ h', SubHier.Edit (some name) r.2 h h' ∧
        h' = (if (h.findShared name).isSome then h else h.addShared name).setShared name r.2 := by
      refine ⟨_, ?_, rfl⟩
      cases hf : h.findShared name with
      | some g =>
        simp only [Option.isSome_some, if_true]
        exact SubHier.edit_setShared (hok.node p h hg) (SubHier.mem_names_of_findShared hf) hne
      | none =>
        simp only [Option.isSome_none, Bool.false_eq_true, if_false]
        exact SubHier.edit_newShared (hok.node p h hg) (SubHier.notMem_names_of_findShared hf) hne
    have hmembers : (((if (h.findShared name).isSome then h else h.addShared name).findShared
        name).map (·.subs)).getD [] = st.tree.leaves p (some name) := by
      rw [hleaves]
      cases hf : h.findShared name with
      | some g => simp [SubHier.leaves, hf]
      | none =>
        unfold SubHier.findShared at hf
        simp [SubHier.addShared, SubHier.findShared, SubHier.leaves, hf]
    rw [hmembers] at hst
    change st' = (if r.1 ≠ Rc.subExists then _ else _ : Rc × SubSt).2 at hst
    rw [show subAddLeaf ids context qos identifier options (st.tree.leaves p (some name)) = r
      from rfl, ← hmem] at hst
    by_cases hex : r.1 = Rc.subExists
    · rw [if_neg (not_not.mpr hex)] at hst
      rw [if_neg (not_not.mpr hex)] at hlen ⊢
      rw [hst]
      refine ⟨SubTree.rewrite_set hok hg he rfl hnd ?_, rfl⟩
      intro b
      cases b
      · rfl
      · show st.tree.sharedSubscriptionCount + _ = st.tree.sharedSubscriptionCount + _
        simp only [Option.isSome_some, if_true]
        omega
    · rw [if_pos hex] at hst
      rw [if_pos hex] at hlen ⊢
      rw [hst]
      refine ⟨SubTree.rewrite_set hok hg he rfl hnd ?_, rfl⟩
      intro b
      cases b
      · rfl
      · show st.tree.sharedSubscriptionCount + 1 + _ = st.tree.sharedSubscriptionCount + _
        simp only [Option.isSome_some, if_true]
        omega

/-- The loop of `sub__add_context` creates the missing nodes below `p`. -/
theorem addBranches_spec {topics : List Bytes} {p : Path} {t : SubTree} (hok : t.Ok)
    (hp : t.has p) (hlen : ∀ l ∈ topics, l.length ≤ 65535) :
    (addBranches topics p t).2 = .ok (p ++ topics) ∧ (addBranches topics p t).1.Ok ∧
      (∀ q, (addBranches topics p t).1.has q ↔ t.has q ∨ ∃ r, r <+: topics ∧ q = p ++ r) ∧
      (∀ q s, (addBranches topics p t).1.leaves q s = t.leaves q s) := by
  induction topics generalizing p t with
  | nil =>
    refine ⟨by simp [addBranches], hok, fun q => ⟨Or.inl, ?_⟩, fun _ _ => rfl⟩
    rintro (h | ⟨r, hr, rfl⟩)
    · exact h
    · rw [List.prefix_nil.mp hr, List.append_nil]
      exact hp
  | cons topic topics ih =>
    have hp0 : p ≠ [] := hok.rooted p hp
    obtain ⟨hok1, hhas1, hl1⟩ := SubTree.addHierEntry_spec (p := p ++ [topic]) hok (by simp)
      (by rw [List.dropLast_concat]; exact fun _ => hp)
    obtain ⟨h1, h2, h3, h4⟩ := ih hok1 ((hhas1 _).mpr (.inl rfl))
      fun l hl => hlen l (List.mem_cons_of_mem _ hl)
    have hunf : addBranches (topic :: topics) p t =
        addBranches topics (p ++ [topic]) (t.addHierEntry (p ++ [topic])) := by
      rw [addBranches, if_neg (Nat.not_lt.mpr (hlen topic List.mem_cons_self))]
    rw [hunf]
    refine ⟨by rw [h1, List.append_assoc]; rfl, h2, fun q => ?_, fun q s => by rw [h4, hl1]⟩
    rw [h3, hhas1]
    constructor
    · rintro ((rfl | h) | ⟨r, hr, rfl⟩)
      · exact .inr ⟨[topic], by simp, rfl⟩
      · exact .inl h
      · exact .inr ⟨topic :: r, by simpa using hr, by simp⟩
    · rintro (h | ⟨r, hr, rfl⟩)
      · exact .inl (.inr h)
      · cases r with
        | nil => exact .inl (.inr (by simpa using hp))
        | cons a r =>
          obtain ⟨rfl, htail⟩ := List.cons_prefix_cons.mp hr
          exact .inr ⟨r, htail, by simp⟩

/-- The leaf list after `sub__add`; a context without an id is not added. -/
def addLeaf (ids : CtxId → Option Bytes) (context : CtxId) (qos : Qos) (identifier : Nat)
    (options : UInt8) (ls : List SubLeaf) : Rc × List SubLeaf :=
  if ids context = none then (Rc.subExists, ls)
  else subAddLeaf ids context qos identifier options ls

/-- **What `sub__add` does.** -/
theorem subAdd_spec (ids : CtxId → Option Bytes) (context : CtxId) (protocol : Protocol) (qos : Qos)
    (identifier : Nat) (options : UInt8) {sub : Bytes} {topics : List Bytes} {share : Option Bytes}
    (st : SubSt) (hok : st.tree.Ok) (htok : subTopicTokenise sub = .ok (topics, share))
    (hlen : ∀ l ∈ topics, l.length ≤ 65535) :
    let r := addLeaf ids context qos identifier options (st.tree.leaves (nodeOf topics) share)
    let st' := (subAdd ids context protocol sub qos identifier options st).2
    st'.tree.Ok ∧
      (∀ q, st'.tree.has q ↔ st.tree.has q ∨ (q ≠ [] ∧ q <+: nodeOf topics)) ∧
      (∀ q s, st'.tree.leaves q s =
        if q = nodeOf topics ∧ s = share then r.2 else st.tree.leaves q s) ∧
      st'.subs = if r.1 ≠ Rc.subExists then takeSlot ⟨nodeOf topics, share, sub⟩ st.subs
        else st.subs := by
  intro r st'
  have hroot : (topics.headD []).length ≤ 65535 := by
    cases topics with
    | nil => simp
    | cons a topics => exact hlen a List.mem_cons_self
  obtain ⟨hok1, hhas1, hl1⟩ := SubTree.addHierEntry_spec (p := [topics.headD []]) hok (by simp)
    (by simp)
  obtain ⟨h1, h2, h3, h4⟩ := addBranches_spec hok1 ((hhas1 _).mpr (.inl rfl)) hlen
  have hhas : ∀ q, (addBranches topics [topics.headD []]
      (st.tree.addHierEntry [topics.headD []])).1.has q ↔
      st.tree.has q ∨ (q ≠ [] ∧ q <+: nodeOf topics) := by
    intro q
    rw [h3, hhas1]
    constructor
    · rintro ((rfl | h) | ⟨u, hu, rfl⟩)
      · exact .inr ⟨by simp, by simp [nodeOf]⟩
      · exact .inl h
      · exact .inr ⟨by simp, List.cons_prefix_cons.mpr ⟨rfl, hu⟩⟩
    · rintro (h | ⟨hne, hq⟩)
      · exact .inl (.inr h)
      · cases q with
        | nil => exact absurd rfl hne
        | cons a q =>
          obtain ⟨rfl, htail⟩ := List.cons_prefix_cons.mp hq
          exact .inr ⟨q, htail, rfl⟩
  generalize hb : addBranches topics [topics.headD []]
    (st.tree.addHierEntry [topics.headD []]) = b at *
  obtain ⟨tree, e⟩ := b
  simp only at h1 h2 h3 h4 hhas
  subst h1
  have hst : st' = (if ids context = none then (Rc.success, { st with tree := tree })
      else subAddAt ids context protocol sub qos identifier options (nodeOf topics) share
        { st with tree := tree }).2 := by
    show (subAdd ids context protocol sub qos identifier options st).2 = _
    unfold subAdd
    rw [htok]
    simp only [if_neg (Nat.not_lt.mpr hroot)]
    unfold subAddContext
    simp only [hb]
    cases share <;> rfl
  have hleaves : ∀ q s, tree.leaves q s = st.tree.leaves q s := fun q s => by rw [h4, hl1]
  by_cases hid : ids context = none
  · have hr : r = (Rc.subExists, st.tree.leaves (nodeOf topics) share) := if_pos hid
    rw [hst, if_pos hid, hr]
    refine ⟨h2, hhas, fun q s => ?_, by simp⟩
    rw [hleaves]
    split
    · rename_i h
      rw [h.1, h.2]
    · rfl
  · have hnode : tree.has (nodeOf topics) :=
      (hhas _).mpr (.inr ⟨by simp [nodeOf], List.prefix_rfl⟩)
    have h2' : ({ st with tree := tree } : SubSt).tree.Ok := h2
    obtain ⟨hrw, hsubs⟩ := subAddAt_spec protocol sub qos identifier options share h2' hnode hid
    have hr : r = subAddLeaf ids context qos identifier options
        (tree.leaves (nodeOf topics) share) := by
      show addLeaf _ _ _ _ _ _ = _
      rw [addLeaf, if_neg hid, hleaves]
    rw [hst, if_neg hid, hr]
    refine ⟨hrw.ok, fun q => (hrw.has_iff q).trans (hhas q), fun q s => ?_, hsubs⟩
    rw [hrw.leaves_eq]
    split
    · rfl
    · exact hleaves q s

end Add

/-! ## Removing -/

section Remove

variable {context : CtxId} {share : Option Bytes} {p : Path} {st : SubSt}

/-- `sub__remove_shared` or `sub__remove_normal`, as `sub__remove_recurse` chooses. -/
def subRemoveAt (context : CtxId) (share : Option Bytes) (subhier : Path) (reason : UInt8)
    (st : SubSt) : Rc × UInt8 × SubSt :=
  match share with
  | some name => subRemoveShared context subhier reason name st
  | none => subRemoveNormal context subhier reason st

def slotTest (p : Path) : Option Bytes → ClientSub → Bool
  | none, c => c.hier = p
  | some name, c => c.hier = p ∧ c.shared = some name

/-- The leaf list without the leaf of `context`. -/
abbrev without (context : CtxId) (ls : List SubLeaf) : List SubLeaf :=
  ls.eraseP (·.context = context)

abbrev holds (context : CtxId) (ls : List SubLeaf) : Bool := ls.any (·.context = context)

theorem without_of_not_holds {ls : List SubLeaf} (h : holds context ls = false) :
    without context ls = ls := by
  rw [List.any_eq_false] at h
  exact List.eraseP_of_forall_not fun a ha => by simpa using h a ha

theorem without_length {ls : List SubLeaf} (h : holds context ls = true) :
    (without context ls).length + 1 = ls.length := by
  obtain ⟨a, ha, hc⟩ := List.any_eq_true.mp h
  have hlen : (without context ls).length = ls.length - 1 := List.length_eraseP_of_mem ha hc
  have hpos := List.length_pos_of_mem ha
  omega

theorem without_nodup {ls : List SubLeaf} (h : (ls.map (·.context)).Nodup) :
    ((without context ls).map (·.context)).Nodup :=
  h.sublist (List.eraseP_sublist.map _)

theorem SubTree.rewrite_refl {t : SubTree} (hok : t.Ok) (p : Path) (share : Option Bytes) :
    Rewrite t t p share (t.leaves p share) := by
  refine ⟨hok, fun _ => Iff.rfl, fun q s => ?_⟩
  split
  · rename_i h
    rw [h.1, h.2]
  · rfl

theorem subRemoveAt_spec (context : CtxId) (share : Option Bytes) (hok : st.tree.Ok)
    (hp : st.tree.has p) (reason : UInt8) :
    let st' := (subRemoveAt context share p reason st).2.2
    SubTree.Rewrite st.tree st'.tree p share (without context (st.tree.leaves p share)) ∧
      st'.subs = if holds context (st.tree.leaves p share) then clearSlot (slotTest p share) st.subs
        else st.subs := by
  intro st'
  obtain ⟨h, hg⟩ := SubTree.has_iff.mp hp
  have hleaves := SubTree.leaves_of_get hg share
  have hnd : ((without context (st.tree.leaves p share)).map (·.context)).Nodup :=
    without_nodup (hok.once p share)
  by_cases hh : holds context (st.tree.leaves p share) = true
  · have hlen := without_length hh
    cases share with
    | none =>
      have hany : h.subs.any (·.context = context) = true := by rwa [hleaves] at hh
      have hst : st' = (subRemoveNormal context p reason st).2.2 := rfl
      unfold subRemoveNormal at hst
      simp only [hg, hany, if_true] at hst
      have he := SubHier.edit_normal (hok.node p h hg) (without context (st.tree.leaves p none))
      rw [hst, if_pos hh]
      refine ⟨SubTree.rewrite_set hok hg he (by rw [hleaves]; rfl) hnd ?_, rfl⟩
      intro b
      cases b
      · show st.tree.subscriptionCount - 1 + _ = st.tree.subscriptionCount + _
        simp only [Option.isSome_none, if_true]
        omega
      · rfl
    | some name =>
      have hst : st' = (subRemoveShared context p reason name st).2.2 := rfl
      unfold subRemoveShared at hst
      cases hf : h.findShared name with
      | none =>
        rw [hleaves] at hh
        simp [SubHier.leaves, hf] at hh
      | some g =>
        have hsubs : h.leaves (some name) = g.subs := by simp [SubHier.leaves, hf]
        have hany : g.subs.any (·.context = context) = true := by rwa [hleaves, hsubs] at hh
        simp only [hg, hf, hany, if_true] at hst
        have he : h.Edit (some name) (without context (st.tree.leaves p (some name)))
            (dropMember context g h) := hleaves ▸ SubHier.edit_dropMember (hok.node p h hg) hf
        rw [hst, if_pos hh]
        refine ⟨SubTree.rewrite_set hok hg he rfl hnd ?_, rfl⟩
        intro b
        cases b
        · rfl
        · show st.tree.sharedSubscriptionCount - 1 + _ = st.tree.sharedSubscriptionCount + _
          simp only [Option.isSome_some, if_true]
          omega
  · have hst : st' = st := by
      cases share with
      | none =>
        have hany : ¬ h.subs.any (·.context = context) = true := by rwa [hleaves] at hh
        show (subRemoveNormal context p reason st).2.2 = st
        unfold subRemoveNormal
        simp only [hg, hany]
        rfl
      | some name =>
        show (subRemoveShared context p reason name st).2.2 = st
        unfold subRemoveShared
        simp only [hg]
        cases hf : h.findShared name with
        | none => rfl
        | some g =>
          have hany : ¬ g.subs.any (·.context = context) = true := by
            rw [hleaves] at hh
            simpa [SubHier.leaves, hf] using hh
          simp only [hany]
          rfl
    rw [hst, if_neg hh, without_of_not_holds (by simpa using hh)]
    exact ⟨SubTree.rewrite_refl hok p share, rfl⟩

/-- `sub__remove_recurse` below the node `p`: the leaf at `p ++ topics` goes, and
with it the nodes below `p` that are bare without it. -/
theorem subRemoveRecurse_spec (context : CtxId) (share : Option Bytes) (topics : List Bytes)
    (reason : UInt8) (hok : st.tree.Ok) (hp : st.tree.has p) :
    let st' := (subRemoveRecurse context share topics p reason st).2.2
    st'.tree.Ok ∧ st'.tree.has p ∧ (∀ q, st'.tree.has q → st.tree.has q) ∧
      (∀ q s, st'.tree.leaves q s = if q = p ++ topics ∧ s = share then
        without context (st.tree.leaves (p ++ topics) share) else st.tree.leaves q s) ∧
      (st'.subs = if holds context (st.tree.leaves (p ++ topics) share) then
        clearSlot (slotTest (p ++ topics) share) st.subs else st.subs) ∧
      (st.tree.Pruned [] → st'.tree.Pruned p) := by
  induction topics generalizing p with
  | nil =>
    intro st'
    obtain ⟨hrw, hsubs⟩ := subRemoveAt_spec context share hok hp reason
    have hst : st' = (subRemoveAt context share p reason st).2.2 := by
      show (subRemoveRecurse context share [] p reason st).2.2 = _
      unfold subRemoveRecurse subRemoveAt
      cases share <;> rfl
    rw [hst, List.append_nil]
    refine ⟨hrw.ok, (hrw.has_iff p).mpr hp, fun q => (hrw.has_iff q).mp, hrw.leaves_eq, hsubs, ?_⟩
    intro hpr q hlen hq hne hbare
    refine hpr q hlen ((hrw.has_iff q).mp hq) ?_ ⟨fun l hl => ?_, fun s => ?_⟩
    · rintro rfl
      simp at hlen
    · exact hbare.1 l ((hrw.has_iff _).mpr hl)
    · have := hbare.2 s
      rwa [hrw.leaves_eq, if_neg fun h => hne h.1] at this
  | cons topic topics ih =>
    intro st'
    have hp0 : p ≠ [] := hok.rooted p hp
    have hassoc : p ++ topic :: topics = p ++ [topic] ++ topics := by simp
    have hunf : st' = (subRemoveRecurse context share (topic :: topics) p reason st).2.2 := rfl
    rw [subRemoveRecurse] at hunf
    cases hb : st.tree.nodes.get (p ++ [topic]) with
    | none =>
      have hnot : ¬ st.tree.has (p ++ [topic]) := Option.not_isSome_iff_eq_none.mpr hb
      have hnil : st.tree.leaves (p ++ topic :: topics) share = [] := by
        refine SubTree.leaves_of_not_has (fun h => hnot ?_) share
        rw [hassoc] at h
        exact hok.has_above (by simp) h
      simp only [hb] at hunf
      rw [hunf, hnil]
      refine ⟨hok, hp, fun _ h => h, fun q s => ?_, rfl, ?_⟩
      · split
        · rename_i h
          rw [h.1, h.2, hnil]
          rfl
        · rfl
      · intro hpr q hlen hq _
        refine hpr q hlen hq ?_
        rintro rfl
        simp at hlen
    | some h =>
      have hbr : st.tree.has (p ++ [topic]) := SubTree.has_iff.mpr ⟨h, hb⟩
      simp only [hb] at hunf
      obtain ⟨hok1, hhas1, hsub1, hl1, hs1, hpr1⟩ := ih hbr
      generalize (subRemoveRecurse context share topics (p ++ [topic]) reason st).2.2 = st1
        at hok1 hhas1 hsub1 hl1 hs1 hpr1 hunf
      have hp1 : st1.tree.has p := hok1.closed p topic hp0 hhas1
      rw [← hassoc] at hl1 hs1
      by_cases hbare : st1.tree.isBare (p ++ [topic]) = true
      · have hB := (SubTree.isBare_iff hok1 hhas1).mp hbare
        obtain ⟨hok2, hhas2, hl2⟩ := SubTree.delNode_spec hok1 hB hhas1
        rw [if_pos hbare] at hunf
        rw [hunf]
        refine ⟨hok2, (hhas2 p).mpr ⟨by simp, hp1⟩, fun q hq => hsub1 q ((hhas2 q).mp hq).2,
          fun q s => by rw [hl2, hl1], hs1, ?_⟩
        intro hpr q hlen hq hne hbareq
        obtain ⟨hqb, hq1⟩ := (hhas2 q).mp hq
        refine hpr1 hpr q hlen hq1 hqb ⟨fun l hl => ?_, fun s => by rw [← hl2]; exact hbareq.2 s⟩
        refine hbareq.1 l ((hhas2 _).mpr ⟨fun e => hne ?_, hl⟩)
        exact (List.append_inj' e rfl).1
      · rw [if_neg hbare] at hunf
        rw [hunf]
        refine ⟨hok1, hp1, hsub1, hl1, hs1, ?_⟩
        intro hpr q hlen hq _
        by_cases hqb : q = p ++ [topic]
        · rw [hqb]
          exact fun h => hbare ((SubTree.isBare_iff hok1 hhas1).mpr h)
        · exact hpr1 hpr q hlen hq hqb

/-- **What `sub__remove` does.** -/
theorem subRemove_spec (context : CtxId) {sub : Bytes} {topics : List Bytes} (reason : UInt8)
    (st : SubSt) (hok : st.tree.Ok) (htok : subTopicTokenise sub = .ok (topics, share)) :
    let st' := (subRemove context sub reason st).2.2
    st'.tree.Ok ∧ (∀ q, st'.tree.has q → st.tree.has q) ∧
      (∀ q s, st'.tree.leaves q s = if q = nodeOf topics ∧ s = share then
        without context (st.tree.leaves (nodeOf topics) share) else st.tree.leaves q s) ∧
      (st'.subs = if holds context (st.tree.leaves (nodeOf topics) share) then
        clearSlot (slotTest (nodeOf topics) share) st.subs else st.subs) ∧
      (st.tree.Pruned [] → st'.tree.Pruned []) := by
  intro st'
  have hst : st' = (subRemove context sub reason st).2.2 := rfl
  unfold subRemove at hst
  rw [htok] at hst
  cases hr : st.tree.nodes.get [topics.headD []] with
  | none =>
    have hnil : st.tree.leaves (nodeOf topics) share = [] := by
      refine SubTree.leaves_of_not_has (fun h => ?_) share
      exact Option.not_isSome_iff_eq_none.mpr hr (hok.has_above (List.cons_ne_nil _ []) h)
    simp only [hr] at hst
    rw [hst, hnil]
    refine ⟨hok, fun _ h => h, fun q s => ?_, rfl, id⟩
    split
    · rename_i h
      rw [h.1, h.2, hnil]
      rfl
    · rfl
  | some h =>
    simp only [hr] at hst
    obtain ⟨h1, -, h3, h4, h5, h6⟩ := subRemoveRecurse_spec context share topics 0x11 hok
      (SubTree.has_iff.mpr ⟨h, hr⟩)
    rw [hst]
    refine ⟨h1, h3, h4, h5, fun hpr q hlen hq _ => h6 hpr q hlen hq ?_⟩
    rintro rfl
    simp at hlen

end Remove

/-! ## Steps of the world -/

section World

variable (ids : CtxId → Option Bytes) (protocol : CtxId → Protocol) {w : SubWorld} (c : CtxId)
  {sub : Bytes} {topics : List Bytes} {share : Option Bytes}

theorem step_add (qos : Qos) (identifier : Nat) (options : UInt8) (hok : w.tree.Ok)
    (htok : subTopicTokenise sub = .ok (topics, share)) (hlen : ∀ l ∈ topics, l.length ≤ 65535) :
    let r := addLeaf ids c qos identifier options (w.tree.leaves (nodeOf topics) share)
    let w' := w.step ids protocol (.add c sub qos identifier options)
    w'.tree.Ok ∧
      (∀ q, w'.tree.has q ↔ w.tree.has q ∨ (q ≠ [] ∧ q <+: nodeOf topics)) ∧
      (∀ q s, w'.tree.leaves q s =
        if q = nodeOf topics ∧ s = share then r.2 else w.tree.leaves q s) ∧
      ∀ d, w'.subs d = if d = c ∧ r.1 ≠ Rc.subExists then
        takeSlot ⟨nodeOf topics, share, sub⟩ (w.subs d) else w.subs d := by
  intro r w'
  obtain ⟨h1, h2, h3, h4⟩ := subAdd_spec ids c (protocol c) qos identifier options
    ⟨w.tree, w.subs c⟩ hok htok hlen
  refine ⟨h1, h2, h3, fun d => ?_⟩
  show Function.update w.subs c _ d = _
  rw [h4]
  by_cases hd : d = c
  · subst hd
    simp only [Function.update_self, true_and]
    rfl
  · simp [hd]

theorem step_remove (hok : w.tree.Ok) (htok : subTopicTokenise sub = .ok (topics, share)) :
    let ls := w.tree.leaves (nodeOf topics) share
    let w' := w.step ids protocol (.remove c sub)
    w'.tree.Ok ∧ (∀ q, w'.tree.has q → w.tree.has q) ∧
      (∀ q s, w'.tree.leaves q s =
        if q = nodeOf topics ∧ s = share then without c ls else w.tree.leaves q s) ∧
      (∀ d, w'.subs d = if d = c ∧ holds c ls = true then
        clearSlot (slotTest (nodeOf topics) share) (w.subs d) else w.subs d) ∧
      (w.tree.Pruned [] → w'.tree.Pruned []) := by
  intro ls w'
  obtain ⟨h1, h2, h3, h4, h5⟩ := subRemove_spec c 0 ⟨w.tree, w.subs c⟩ hok htok
  refine ⟨h1, h2, h3, fun d => ?_, h5⟩
  show Function.update w.subs c _ d = _
  rw [h4]
  by_cases hd : d = c
  · subst hd
    simp only [Function.update_self, true_and]
    rfl
  · simp [hd]

/-- A filter the tokeniser refuses changes nothing. -/
theorem step_refused {rc : Rc} (htok : subTopicTokenise sub = .error rc) :
    (∀ qos identifier options, w.step ids protocol (.add c sub qos identifier options) = w) ∧
      w.step ids protocol (.remove c sub) = w := by
  constructor
  · intro qos identifier options
    simp [SubWorld.step, SubWorld.edit, subAdd, htok]
  · simp [SubWorld.step, SubWorld.edit, subRemove, htok]

end World

end AdaptiveMqtt.Sub
