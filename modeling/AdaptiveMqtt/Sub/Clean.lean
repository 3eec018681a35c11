import AdaptiveMqtt.Sub.Refine

/-!
# Slots and stale subscribers

`sub__clean_session` and the hand-over of `connect__on_authorised` walk the
client's `subs` array and not the tree. They reach every leaf of the client when
array and tree agree (`Tally`): the used slots are the addresses at which the
client has a leaf, each once.

`sub__remove_normal` clears the first slot of the node, which is a shared one if
the client took the shared subscription into an earlier slot. `keepsShared`
excludes that case; `tally_run` shows that array and tree agree in every history
that meets it.
-/

namespace AdaptiveMqtt.Sub

open Lib Topic

def usedSlots (subs : List (Option ClientSub)) : List ClientSub := subs.filterMap id

namespace ClientSub

/-- The address of the leaf a slot stands for. -/
def address (c : ClientSub) : Path × Option Bytes := (c.hier, c.shared)

end ClientSub

/-- The addresses the slots of a client stand for. -/
def addresses (subs : List (Option ClientSub)) : List (Path × Option Bytes) :=
  (usedSlots subs).map ClientSub.address

theorem usedSlots_takeSlot (x : ClientSub) (subs : List (Option ClientSub)) :
    (usedSlots (takeSlot x subs)).Perm (x :: usedSlots subs) := by
  induction subs with
  | nil => exact List.Perm.refl _
  | cons slot subs ih =>
    cases slot with
    | none => exact List.Perm.refl _
    | some c => exact (ih.cons c).trans (List.Perm.swap x c _)

theorem usedSlots_clearSlot (p : ClientSub → Bool) (subs : List (Option ClientSub)) :
    usedSlots (clearSlot p subs) = (usedSlots subs).eraseP p := by
  induction subs with
  | nil => rfl
  | cons slot subs ih =>
    cases slot with
    | none => exact ih
    | some c =>
      unfold clearSlot
      by_cases hc : p c = true
      · rw [if_pos hc]
        exact (List.eraseP_cons_of_pos hc).symm
      · rw [if_neg hc]
        show c :: usedSlots (clearSlot p subs) = (c :: usedSlots subs).eraseP p
        rw [ih, List.eraseP_cons_of_neg hc]

/-! ## The leaves of one client -/

section Leaf

variable {ids : CtxId → Option Bytes} {ls : List SubLeaf} {c d : CtxId}

theorem holds_iff : holds c ls = true ↔ c ∈ ls.map (·.context) := by
  simp [holds, List.mem_map]

theorem holds_without (hnd : (ls.map (·.context)).Nodup) :
    holds d (without c ls) = true ↔ d ≠ c ∧ holds d ls = true := by
  have hmap : (without c ls).map (·.context) = (ls.map (·.context)).erase c := by
    induction ls with
    | nil => rfl
    | cons a ls ih =>
      rw [List.map_cons, List.nodup_cons] at hnd
      by_cases ha : a.context = c
      · rw [without, List.eraseP_cons_of_pos (by simpa using ha), List.map_cons, ha,
          List.erase_cons_head]
      · rw [without, List.eraseP_cons_of_neg (by simpa using ha), List.map_cons, List.map_cons,
          List.erase_cons_tail (by simpa using ha)]
        exact congrArg _ (ih hnd.2)
  rw [holds_iff, hmap, hnd.mem_erase_iff, holds_iff]

/-- `sub__add` gives the client a leaf exactly when it takes a slot. -/
theorem holds_addLeaf (ids : CtxId → Option Bytes) (ls : List SubLeaf) (c d : CtxId) (qos : Qos)
    (identifier : Nat) (options : UInt8) :
    (holds d (addLeaf ids c qos identifier options ls).2 = true ↔
      holds d ls = true ∨ (d = c ∧ (addLeaf ids c qos identifier options ls).1 ≠ Rc.subExists)) ∧
    ((addLeaf ids c qos identifier options ls).1 ≠ Rc.subExists → ¬ holds c ls = true) := by
  unfold addLeaf
  split
  · simp
  · rename_i hid
    rcases subAddLeaf_cases ids c qos identifier options ls with
      ⟨pre, leaf, post, rfl, -, -, hr⟩ | ⟨hno, hr⟩
    · rw [hr]
      simp [holds]
    · rw [hr]
      constructor
      · rw [holds_iff, List.map_append, List.mem_append, ← holds_iff]
        simp [newLeaf]
      · rintro - h
        obtain ⟨x, hx, rfl⟩ := List.mem_map.mp (holds_iff.mp h)
        exact hno x hx ⟨hid, rfl⟩

end Leaf

/-! ## Array and tree agree -/

/-- The used slots of every client are the addresses of its leaves, each once. -/
structure Tally (w : SubWorld) : Prop where
  ok : w.tree.Ok
  nodup : ∀ c, (addresses (w.subs c)).Nodup
  mem_iff : ∀ c p s, (p, s) ∈ addresses (w.subs c) ↔ holds c (w.tree.leaves p s) = true

/-- When a client gives up a normal subscription it holds, the first slot of the
node in its array is not a shared one. -/
def SubWorld.keepsShared (w : SubWorld) : SubOp → Bool
  | .add .. => true
  | .remove c sub =>
    match subTopicTokenise sub with
    | .ok (topics, none) =>
      !holds c (w.tree.leaves (nodeOf topics) none) ||
        ((usedSlots (w.subs c)).find? (·.hier = nodeOf topics)).all (·.shared = none)
    | _ => true

/-- Every removal of a history keeps the shared slots. -/
def keepsSharedRun (ids : CtxId → Option Bytes) (protocol : CtxId → Protocol) :
    SubWorld → List SubOp → Bool
  | _, [] => true
  | w, op :: ops => w.keepsShared op && keepsSharedRun ids protocol (w.step ids protocol op) ops

theorem SubWorld.shared_eq_none {w : SubWorld} {c : CtxId} {sub : Bytes} {topics : List Bytes}
    {csub : ClientSub} (hk : w.keepsShared (.remove c sub) = true)
    (htok : subTopicTokenise sub = .ok (topics, none))
    (hh : holds c (w.tree.leaves (nodeOf topics) none) = true)
    (hfind : (usedSlots (w.subs c)).find? (·.hier = nodeOf topics) = some csub) :
    csub.shared = none := by
  unfold keepsShared at hk
  simp only [htok, hh, hfind] at hk
  simpa using hk

theorem tally_init : Tally SubWorld.init := by
  obtain ⟨hok, -, hleaves⟩ := SubTree.dbOpen_spec
  refine ⟨hok, fun _ => List.nodup_nil, fun c p s => ?_⟩
  show (p, s) ∈ [] ↔ holds c (SubTree.dbOpen.leaves p s) = true
  simp [hleaves]

theorem mem_map_eraseP {α β : Type} {f : α → β} {p : α → Bool} {l : List α} {x : α}
    (hnd : (l.map f).Nodup) (hx : l.find? p = some x) (y : β) :
    y ∈ (l.eraseP p).map f ↔ y ∈ l.map f ∧ y ≠ f x := by
  induction l with
  | nil => cases hx
  | cons a l ih =>
    rw [List.map_cons, List.nodup_cons] at hnd
    rw [List.find?_cons] at hx
    by_cases ha : p a = true
    · rw [ha] at hx
      obtain rfl := Option.some.inj hx
      rw [List.eraseP_cons_of_pos ha, List.map_cons, List.mem_cons]
      constructor
      · intro hy
        exact ⟨.inr hy, fun e => hnd.1 (e ▸ hy)⟩
      · rintro ⟨rfl | hy, hne⟩
        · exact absurd rfl hne
        · exact hy
    · rw [Bool.not_eq_true] at ha
      rw [ha] at hx
      rw [List.eraseP_cons_of_neg (by simp [ha]), List.map_cons, List.mem_cons, ih hnd.2 hx,
        List.map_cons, List.mem_cons]
      have hax : f a ≠ f x := fun e =>
        hnd.1 (e ▸ List.mem_map.mpr ⟨x, List.mem_of_find?_eq_some hx, rfl⟩)
      constructor
      · rintro (rfl | ⟨hy, hne⟩)
        · exact ⟨.inl rfl, hax⟩
        · exact ⟨.inr hy, hne⟩
      · rintro ⟨rfl | hy, hne⟩
        · exact .inl rfl
        · exact .inr ⟨hy, hne⟩

section Steps

variable {ids : CtxId → Option Bytes} {protocol : CtxId → Protocol} {w : SubWorld}

theorem tally_step (ht : Tally w) {op : SubOp} (hv : op.Valid) (hk : w.keepsShared op = true) :
    Tally (w.step ids protocol op) := by
  cases op with
  | add c sub qos identifier options =>
    cases htok : subTopicTokenise sub with
    | error rc =>
      rw [(step_refused ids protocol c htok).1]
      exact ht
    | ok r =>
      obtain ⟨topics, share⟩ := r
      obtain ⟨hok, -, hleaves, hsubs⟩ := step_add ids protocol c qos identifier options
        ht.ok htok (hv.length_le htok)
      have hadd : ∀ d, _ := fun d =>
        holds_addLeaf ids (w.tree.leaves (nodeOf topics) share) c d qos identifier options
      have hmem : ∀ d p s, (p, s) ∈ addresses
          ((w.step ids protocol (.add c sub qos identifier options)).subs d) ↔
          (p, s) ∈ addresses (w.subs d) ∨ (d = c ∧ (addLeaf ids c qos identifier options
            (w.tree.leaves (nodeOf topics) share)).1 ≠ Rc.subExists ∧
            p = nodeOf topics ∧ s = share) := by
        intro d p s
        rw [hsubs]
        split
        · rename_i h
          unfold addresses
          rw [((usedSlots_takeSlot _ _).map _).mem_iff, List.map_cons, List.mem_cons]
          simp [ClientSub.address, h.1, h.2, or_comm]
        · rename_i h
          have : ¬ (d = c ∧ (addLeaf ids c qos identifier options
            (w.tree.leaves (nodeOf topics) share)).1 ≠ Rc.subExists ∧
            p = nodeOf topics ∧ s = share) := fun h' => h ⟨h'.1, h'.2.1⟩
          simp only [this, or_false]
      refine ⟨hok, fun d => ?_, fun d p s => ?_⟩
      · rw [hsubs]
        split
        · rename_i h
          unfold addresses
          rw [((usedSlots_takeSlot _ _).map _).nodup_iff, List.map_cons, List.nodup_cons]
          refine ⟨fun hin => (hadd c).2 h.2 ?_, ht.nodup d⟩
          rw [h.1] at hin
          exact (ht.mem_iff c _ _).mp hin
        · exact ht.nodup d
      · rw [hmem, ht.mem_iff, hleaves]
        split
        · rename_i h
          rw [(hadd d).1, h.1, h.2]
          simp
        · rename_i h
          constructor
          · rintro (h' | ⟨-, -, h'⟩)
            · exact h'
            · exact absurd h' h
          · exact Or.inl
  | remove c sub =>
    cases htok : subTopicTokenise sub with
    | error rc =>
      rw [(step_refused ids protocol c htok).2]
      exact ht
    | ok r =>
      obtain ⟨topics, share⟩ := r
      obtain ⟨hok, -, hleaves, hsubs, -⟩ := step_remove ids protocol c ht.ok htok
      by_cases hh : holds c (w.tree.leaves (nodeOf topics) share) = true
      · have hin := (ht.mem_iff c _ _).mpr hh
        obtain ⟨csub, hfind, haddr⟩ : ∃ csub,
            (usedSlots (w.subs c)).find? (slotTest (nodeOf topics) share) = some csub ∧
              csub.address = (nodeOf topics, share) := by
          obtain ⟨x, hx, hxa⟩ := List.mem_map.mp hin
          obtain ⟨hx1, hx2⟩ := Prod.mk.inj hxa
          have hsome : ((usedSlots (w.subs c)).find? (slotTest (nodeOf topics) share)).isSome := by
            rw [List.find?_isSome]
            refine ⟨x, hx, ?_⟩
            cases share with
            | none => simp [slotTest, hx1]
            | some name => simp [slotTest, hx1, hx2]
          obtain ⟨csub, hcs⟩ := Option.isSome_iff_exists.mp hsome
          refine ⟨csub, hcs, ?_⟩
          have htest := List.find?_some hcs
          cases share with
          | none =>
            simp only [slotTest, decide_eq_true_eq] at htest
            exact Prod.ext htest (SubWorld.shared_eq_none hk htok hh hcs)
          | some name =>
            simp only [slotTest, decide_eq_true_eq] at htest
            exact Prod.ext htest.1 htest.2
        have hmem := mem_map_eraseP (ht.nodup c) hfind
        refine ⟨hok, fun d => ?_, fun d p s => ?_⟩
        · rw [hsubs]
          split
          · rename_i h
            unfold addresses
            rw [usedSlots_clearSlot]
            exact (ht.nodup d).sublist (List.eraseP_sublist.map _)
          · exact ht.nodup d
        · rw [hsubs, hleaves]
          by_cases hd : d = c
          · subst hd
            rw [if_pos ⟨rfl, hh⟩]
            unfold addresses
            rw [usedSlots_clearSlot, hmem, haddr]
            have hold := ht.mem_iff d p s
            unfold addresses at hold
            rw [hold]
            split
            · rename_i h
              rw [holds_without (ht.ok.once _ _), h.1, h.2]
              simp
            · rename_i h
              simp only [ne_eq, Prod.mk.injEq, h, not_false_eq_true, and_true]
          · rw [if_neg fun h => hd h.1, ht.mem_iff]
            split
            · rename_i h
              rw [holds_without (ht.ok.once _ _), h.1, h.2]
              simp [hd]
            · rfl
      · have hsame : without c (w.tree.leaves (nodeOf topics) share) =
            w.tree.leaves (nodeOf topics) share := without_of_not_holds (by simpa using hh)
        refine ⟨hok, fun d => ?_, fun d p s => ?_⟩
        · rw [hsubs, if_neg fun h => hh h.2]
          exact ht.nodup d
        · rw [hsubs, if_neg fun h => hh h.2, hleaves, hsame, ht.mem_iff]
          split
          · rename_i h
            rw [h.1, h.2]
          · rfl

theorem tally_run {ops : List SubOp} : ∀ {w : SubWorld}, Tally w → (∀ op ∈ ops, op.Valid) →
    keepsSharedRun ids protocol w ops = true → Tally (ops.foldl (SubWorld.step ids protocol) w) := by
  induction ops with
  | nil => intro w ht _ _; exact ht
  | cons op ops ih =>
    intro w ht hv hk
    rw [keepsSharedRun, Bool.and_eq_true] at hk
    refine ih (tally_step ht (hv op List.mem_cons_self) hk.1) (fun o ho => ?_) hk.2
    exact hv o (List.mem_cons_of_mem op ho)

end Steps

/-! ## Cleaning -/

section CleanSession

variable {t : SubTree} {c : CtxId}

/-- Freeing a bare node and its bare ancestors changes no leaf. -/
theorem tmpRemoveSubs_spec (fuel : Nat) {p : Path} (hok : t.Ok) (hp : t.has p) (hb : t.Bare p) :
    (tmpRemoveSubs fuel p t).Ok ∧ ∀ q s, (tmpRemoveSubs fuel p t).leaves q s = t.leaves q s := by
  induction fuel generalizing p t with
  | zero => exact ⟨hok, fun _ _ => rfl⟩
  | succ fuel ih =>
    obtain ⟨h, hg⟩ := SubTree.has_iff.mp hp
    unfold tmpRemoveSubs
    simp only [hg]
    split
    · exact ⟨hok, fun _ _ => rfl⟩
    · rename_i hlen
      split
      · exact ⟨hok, fun _ _ => rfl⟩
      · obtain ⟨hok', hhas', hl'⟩ := SubTree.delNode_spec hok hb hp
        split
        · rename_i hbare
          rw [Bool.and_eq_true] at hbare
          have hup : (t.delNode p).has p.dropLast := by
            by_contra hn
            rw [SubTree.not_isBare_of_not_has hn] at hbare
            exact Bool.false_ne_true hbare.1
          obtain ⟨h1, h2⟩ := ih hok' hup ((SubTree.isBare_iff hok' hup).mp hbare.1)
          exact ⟨h1, fun q s => by rw [h2, hl']⟩
        · exact ⟨hok', hl'⟩

/-- The removal is the one of `sub__remove_normal` and `sub__remove_shared`. -/
theorem cleanLeaf_eq {csub : ClientSub} {h : SubHier} (hg : t.nodes.get csub.hier = some h) :
    cleanLeaf c csub h t = (subRemoveAt c csub.shared csub.hier 0 ⟨t, []⟩).2.2.tree := by
  unfold cleanLeaf subRemoveAt subRemoveShared subRemoveNormal
  cases csub.shared with
  | none =>
    simp only [hg]
    split <;> rfl
  | some name =>
    simp only [hg]
    cases h.findShared name with
    | none => rfl
    | some g =>
      simp only
      split <;> rfl

/-- A slot of `sub__clean_session` takes the client's leaf off its address. -/
theorem cleanSlot_spec (hok : t.Ok) (csub : ClientSub) :
    (cleanSlot c csub t).Ok ∧ ∀ q s, (cleanSlot c csub t).leaves q s =
      if q = csub.hier ∧ s = csub.shared then without c (t.leaves csub.hier csub.shared)
      else t.leaves q s := by
  unfold cleanSlot
  cases hg : t.nodes.get csub.hier with
  | none =>
    have hnil := SubTree.leaves_of_not_has (Option.not_isSome_iff_eq_none.mpr hg) csub.shared
    refine ⟨hok, fun q s => ?_⟩
    by_cases h : q = csub.hier ∧ s = csub.shared
    · rw [if_pos h, hnil, h.1, h.2]
      exact hnil
    · rw [if_neg h]
  | some h =>
    have hp : t.has csub.hier := SubTree.has_iff.mpr ⟨h, hg⟩
    have hst : (SubSt.mk t []).tree.Ok := hok
    have hrem := (subRemoveAt_spec c csub.shared hst hp 0).1
    rw [← cleanLeaf_eq hg] at hrem
    simp only
    generalize cleanLeaf c csub h t = t1 at hrem
    split
    · rename_i hbare
      rw [Bool.and_eq_true] at hbare
      have hp1 := (hrem.has_iff csub.hier).mpr hp
      obtain ⟨h1, h2⟩ := tmpRemoveSubs_spec csub.hier.length hrem.ok hp1
        ((SubTree.isBare_iff hrem.ok hp1).mp hbare.1)
      exact ⟨h1, fun q s => by rw [h2]; exact hrem.leaves_eq q s⟩
    · exact ⟨hrem.ok, hrem.leaves_eq⟩

/-- Cleaning takes the client's leaf off the address of every used slot. -/
theorem cleanSlots_spec (subs : List (Option ClientSub)) : ∀ {t : SubTree}, t.Ok →
    let t' := subs.foldl (fun t slot => slot.elim t (cleanSlot c · t)) t
    t'.Ok ∧ ∀ p s, holds c (t'.leaves p s) = true →
      holds c (t.leaves p s) = true ∧ (p, s) ∉ addresses subs := by
  induction subs with
  | nil =>
    intro t hok t'
    exact ⟨hok, fun p s h => ⟨h, fun h => nomatch h⟩⟩
  | cons slot subs ih =>
    intro t hok t'
    cases slot with
    | none => exact ih hok
    | some csub =>
      obtain ⟨hok1, hl1⟩ := cleanSlot_spec (c := c) hok csub
      obtain ⟨hok2, h2⟩ := ih hok1
      refine ⟨hok2, fun p s hh => ?_⟩
      obtain ⟨h3, h4⟩ := h2 p s hh
      rw [hl1] at h3
      have haddr : addresses (some csub :: subs) = csub.address :: addresses subs := rfl
      rw [haddr, List.mem_cons, not_or]
      split at h3
      · rw [holds_without (hok.once _ _)] at h3
        exact absurd rfl h3.1
      · rename_i hne
        exact ⟨h3, fun e => hne (Prod.mk.inj e), h4⟩

end CleanSession

/-! ## Handing over -/

section HandOver

variable {t : SubTree} {found context : CtxId}

/-- No repointed leaf refers to the old context. -/
theorem not_mem_repoint {ls : List SubLeaf} {leaf : SubLeaf} (hne : context ≠ found)
    (h : leaf ∈ ls.map (repoint found context)) : leaf.context ≠ found := by
  obtain ⟨l, -, rfl⟩ := List.mem_map.mp h
  unfold repoint
  split
  · exact hne
  · assumption

theorem handOverLeaves_spec (hne : context ≠ found) {csub : ClientSub} {h : SubHier}
    {s : Option Bytes} {leaf : SubLeaf}
    (hl : (handOverLeaves found context csub h).IsLeaf leaf s) (hc : leaf.context = found) :
    h.IsLeaf leaf s ∧ s ≠ csub.shared := by
  have hsubs : (handOverLeaves found context csub h).subs = h.subs.map (repoint found context) := by
    unfold handOverLeaves
    cases csub.shared with
    | none => rfl
    | some name =>
      simp only
      split <;> rfl
  cases s with
  | none =>
    rw [SubHier.IsLeaf, hsubs] at hl
    exact absurd hc (not_mem_repoint hne hl)
  | some n =>
    unfold handOverLeaves at hl
    cases hs : csub.shared with
    | none =>
      rw [hs] at hl
      exact ⟨hl, fun e => nomatch e⟩
    | some name =>
      simp only [hs, SubHier.findShared] at hl
      cases hf : h.shared.find? (·.name = name) with
      | none =>
        rw [hf] at hl
        refine ⟨hl, ?_⟩
        rintro ⟨rfl⟩
        obtain ⟨g, hg, hn, -⟩ := hl
        exact absurd hn (by simpa using List.find?_eq_none.mp hf g hg)
      | some g =>
        rw [hf] at hl
        obtain ⟨g', hg', hn, hleaf⟩ := hl
        simp only [SubHier.setShared_shared, List.mem_map] at hg'
        obtain ⟨g₀, hg₀, rfl⟩ := hg'
        rw [SubHier.writeGroup_name] at hn
        by_cases he : g₀.name = name
        · rw [SubHier.writeGroup, if_pos he] at hleaf
          exact absurd hc (not_mem_repoint hne hleaf)
        · rw [SubHier.writeGroup, if_neg he] at hleaf
          refine ⟨⟨g₀, hg₀, hn, hleaf⟩, ?_⟩
          rintro ⟨rfl⟩
          exact he hn

/-- A slot of the hand-over leaves no leaf of the old context at its address, and
makes none elsewhere. -/
theorem handOverSlot_spec (hne : context ≠ found) (csub : ClientSub) {p : Path}
    {s : Option Bytes} {leaf : SubLeaf}
    (hl : (handOverSlot found context csub t).IsLeaf p s leaf) (hc : leaf.context = found) :
    t.IsLeaf p s leaf ∧ (p, s) ≠ csub.address := by
  unfold handOverSlot at hl
  cases hg : t.nodes.get csub.hier with
  | none =>
    rw [hg] at hl
    refine ⟨hl, fun e => ?_⟩
    obtain ⟨h, hget, -⟩ := hl
    rw [(Prod.mk.inj e).1] at hget
    exact nomatch hg.symm.trans hget
  | some h =>
    rw [hg] at hl
    obtain ⟨h', hget, hin⟩ := hl
    rw [show (t.setNode csub.hier _).nodes.get p = _ from Heap.get_set _ _ _ _] at hget
    by_cases hp : p = csub.hier
    · rw [if_pos hp] at hget
      obtain rfl := Option.some.inj hget
      obtain ⟨hin, hs⟩ := handOverLeaves_spec hne hin hc
      exact ⟨⟨h, hp ▸ hg, hin⟩, fun e => hs (Prod.mk.inj e).2⟩
    · rw [if_neg hp] at hget
      exact ⟨⟨h', hget, hin⟩, fun e => hp (Prod.mk.inj e).1⟩

/-- The hand-over leaves no leaf of the old context at the address of a used slot. -/
theorem subHandOver_spec (hne : context ≠ found) (subs : List (Option ClientSub)) :
    ∀ {t : SubTree} {p : Path} {s : Option Bytes} {leaf : SubLeaf},
      (subHandOver found context subs t).IsLeaf p s leaf → leaf.context = found →
      t.IsLeaf p s leaf ∧ (p, s) ∉ addresses subs := by
  induction subs with
  | nil =>
    intro t p s leaf hl _
    exact ⟨hl, fun h => nomatch h⟩
  | cons slot subs ih =>
    intro t p s leaf hl hc
    cases slot with
    | none => exact ih hl hc
    | some csub =>
      obtain ⟨h1, h2⟩ := ih (t := handOverSlot found context csub t) hl hc
      obtain ⟨h3, h4⟩ := handOverSlot_spec hne csub h1 hc
      refine ⟨h3, ?_⟩
      have haddr : addresses (some csub :: subs) = csub.address :: addresses subs := rfl
      rw [haddr, List.mem_cons, not_or]
      exact ⟨h4, h2⟩

end HandOver

/-- **No stale subscriber.** In every history whose removals keep the shared
slots, neither cleaning the session of a client nor handing it over to a new
context leaves a leaf of the client behind. -/
theorem no_stale_subscriber (ids : CtxId → Option Bytes) (protocol : CtxId → Protocol)
    (ops : List SubOp) (hv : ∀ op ∈ ops, op.Valid)
    (hk : keepsSharedRun ids protocol SubWorld.init ops = true) (c : CtxId) :
    let w := SubWorld.run ids protocol ops
    (∀ p share leaf, (subCleanSession c ⟨w.tree, w.subs c⟩).tree.IsLeaf p share leaf →
      leaf.context ≠ c) ∧
    (∀ context, context ≠ c → ∀ p share leaf,
      (subHandOver c context (w.subs c) w.tree).IsLeaf p share leaf → leaf.context ≠ c) := by
  intro w
  have ht : Tally w := tally_run tally_init hv hk
  constructor
  · intro p share leaf hl hc
    obtain ⟨hok, hclean⟩ := cleanSlots_spec (c := c) (w.subs c) ht.ok
    have hmem := (SubTree.isLeaf_iff hok).mp hl
    obtain ⟨hh, hnot⟩ := hclean p share (holds_iff.mpr (List.mem_map.mpr ⟨leaf, hmem, hc⟩))
    exact hnot ((ht.mem_iff c p share).mpr hh)
  · intro context hne p share leaf hl hc
    obtain ⟨hold, hnot⟩ := subHandOver_spec hne (w.subs c) hl hc
    have hmem := (SubTree.isLeaf_iff ht.ok).mp hold
    exact hnot ((ht.mem_iff c p share).mpr (holds_iff.mpr (List.mem_map.mpr ⟨leaf, hmem, hc⟩)))

/-- A client that subscribes to a filter normally first and shared second may
give up the normal subscription. -/
theorem no_stale_subscriber_normal_first :
    let ops := [SubOp.add 0 (ascii "a") .q0 0 0, .add 0 (ascii "$share/g/a") .q1 0 0,
      .remove 0 (ascii "a")]
    let w := SubWorld.run (fun c => some (List.replicate c 0)) (fun _ => .mqtt5) ops
    w.tree.total true = 1 ∧
    ∀ p share leaf, (subCleanSession 0 ⟨w.tree, w.subs 0⟩).tree.IsLeaf p share leaf →
      leaf.context ≠ 0 :=
  ⟨by decide, (no_stale_subscriber (fun c => some (List.replicate c 0)) (fun _ => .mqtt5)
    [SubOp.add 0 (ascii "a") .q0 0 0, .add 0 (ascii "$share/g/a") .q1 0 0,
      .remove 0 (ascii "a")] (by decide) (by decide) 0).1⟩

/-- With the shared subscription in the earlier slot, giving up the normal one
clears the slot of the shared one; its leaf stays behind the clean-up and the
hand-over. -/
theorem stale_subscriber_shared_first :
    let ops := [SubOp.add 0 (ascii "$share/g/a") .q1 0 0, .add 0 (ascii "a") .q0 0 0,
      .remove 0 (ascii "a")]
    let w := SubWorld.run (fun c => some (List.replicate c 0)) (fun _ => .mqtt5) ops
    (∀ op ∈ ops, op.Valid) ∧
    (∃ p share leaf, (subCleanSession 0 ⟨w.tree, w.subs 0⟩).tree.IsLeaf p share leaf ∧
      leaf.context = 0) ∧
    (∃ p share leaf, (subHandOver 0 1 (w.subs 0) w.tree).IsLeaf p share leaf ∧
      leaf.context = 0) := by
  refine ⟨by decide, ⟨[[], [], ascii "a"], some (ascii "g"), newLeaf 0 .q1 0 0, ?_, rfl⟩,
    [[], [], ascii "a"], some (ascii "g"), newLeaf 0 .q1 0 0, ?_, rfl⟩
  · exact ⟨⟨[], [⟨ascii "g", [newLeaf 0 .q1 0 0]⟩]⟩, by decide, _, List.mem_cons_self, rfl,
      List.mem_cons_self⟩
  · exact ⟨⟨[], [⟨ascii "g", [newLeaf 0 .q1 0 0]⟩]⟩, by decide, _, List.mem_cons_self, rfl,
      List.mem_cons_self⟩

end AdaptiveMqtt.Sub
