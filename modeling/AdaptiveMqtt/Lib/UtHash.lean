import AdaptiveMqtt.Lib.Agenda

/-!
# Chained hash tables with an order

Elements are kept twice: in an order of their own, and in the chains of buckets, where they are
found by their keys. A new element goes to the head of its chain, and when a chain gets long the
number of buckets doubles, which turns the order of the elements in a chain around. Nothing keeps
two elements from having one key: which of them is found depends on the chain. If keys do not
repeat, it does not.
-/

namespace AdaptiveMqtt.Lib

/-! ## Buckets -/

/-- `UT_hash_table`, without the order of the elements. -/
structure Buckets (ε : Type) where
  log2NumBuckets : Nat
  /-- The chain of a bucket, from its head. -/
  chains : Nat → List ε
  expandMult : Nat → Nat
  ineffExpands : Nat
  noexpand : Bool

namespace Buckets

variable {ε : Type} (hashv : ε → Nat)

/-- `HASH_MAKE_TABLE`. -/
def make : Buckets ε := ⟨5, fun _ => [], fun _ => 0, 0, false⟩

/-- `HASH_TO_BKT`: the number of buckets is a power of two. -/
def bucketOf (b : Buckets ε) (h : Nat) : Nat := h % 2 ^ b.log2NumBuckets

/-- The `expand_mult` of a bucket that gets `count` elements one by one. -/
def multOf (ideal count : Nat) : Nat :=
  (List.range count).foldl
    (fun mult k => if ideal < k + 1 ∧ mult * ideal < k + 1 then mult + 1 else mult) 0

/-- The chain of a bucket when there are twice as many: each old chain is gone through from its
head, and what comes later gets in front. -/
def rechain (b : Buckets ε) (i : Nat) : List ε :=
  ((b.chains (b.bucketOf i)).filter fun e => hashv e % 2 ^ (b.log2NumBuckets + 1) = i).reverse

def expand (numItems : Nat) (b : Buckets ε) : Buckets ε :=
  let n := 2 ^ (b.log2NumBuckets + 1)
  let ideal := numItems / n + if numItems % n ≠ 0 then 1 else 0
  let count := fun i => (b.rechain hashv i).length
  let nonideal := ((List.range n).map fun i => count i - ideal).sum
  let ineffExpands := if numItems / 2 < nonideal then b.ineffExpands + 1 else 0
  ⟨b.log2NumBuckets + 1, b.rechain hashv, fun i => multOf ideal (count i), ineffExpands,
    b.noexpand || 1 < ineffExpands⟩

/-- The element becomes the head of the chain of its bucket. -/
def push (e : ε) (b : Buckets ε) : Buckets ε :=
  let i := b.bucketOf (hashv e)
  { b with chains := Function.update b.chains i (e :: b.chains i) }

/-- `HASH_ADD_TO_BKT`, when `numItems` counts the new element. -/
def add (numItems : Nat) (e : ε) (b : Buckets ε) : Buckets ε :=
  let i := b.bucketOf (hashv e)
  if (b.expandMult i + 1) * 10 ≤ (b.chains i).length + 1 ∧ b.noexpand = false then
    (b.push hashv e).expand hashv numItems
  else b.push hashv e

/-- `HASH_DEL_IN_BKT`. -/
def remove (stay : ε → Bool) (b : Buckets ε) : Buckets ε :=
  { b with chains := fun i => (b.chains i).filter stay }

/-- Every element is in the chain of its bucket, and nowhere else. -/
def Holds (b : Buckets ε) (items : List ε) : Prop :=
  ∀ i, (b.chains i).Perm (items.filter fun e => b.bucketOf (hashv e) = i)

variable {hashv} {b : Buckets ε} {items : List ε}

theorem holds_make : (make : Buckets ε).Holds hashv [] := fun _ => .nil

theorem Holds.expand (h : b.Holds hashv items) (numItems : Nat) :
    (b.expand hashv numItems).Holds hashv items := by
  intro i
  show (b.rechain hashv i).Perm (items.filter fun e => hashv e % 2 ^ (b.log2NumBuckets + 1) = i)
  refine (List.reverse_perm _).trans (((h _).filter _).trans (List.Perm.of_eq ?_))
  rw [List.filter_filter]
  refine List.filter_congr fun e _ => ?_
  -- an element of the new bucket was in the one this bucket comes from
  rw [Bool.and_eq_left_iff_imp]
  intro hi
  rw [decide_eq_true_eq] at hi ⊢
  unfold bucketOf
  rw [← hi, Nat.mod_mod_of_dvd _ (pow_dvd_pow 2 (Nat.le_succ _))]

theorem Holds.push (h : b.Holds hashv items) (e : ε) :
    (b.push hashv e).Holds hashv (e :: items) := by
  intro i
  show (Function.update b.chains (b.bucketOf (hashv e)) (e :: b.chains (b.bucketOf (hashv e)))
    i).Perm ((e :: items).filter fun e => b.bucketOf (hashv e) = i)
  by_cases hi : i = b.bucketOf (hashv e)
  · subst hi
    rw [Function.update_self, List.filter_cons_of_pos (by simp)]
    exact (h _).cons e
  · rw [Function.update_of_ne hi, List.filter_cons_of_neg (by simpa using fun heq => hi heq.symm)]
    exact h i

theorem Holds.add (h : b.Holds hashv items) (numItems : Nat) (e : ε) :
    (b.add hashv numItems e).Holds hashv (e :: items) := by
  unfold Buckets.add
  simp only
  split
  · exact (h.push e).expand numItems
  · exact h.push e

theorem Holds.perm {items' : List ε} (h : b.Holds hashv items) (hperm : items.Perm items') :
    b.Holds hashv items' := fun i => (h i).trans (hperm.filter _)

theorem Holds.remove (h : b.Holds hashv items) (stay : ε → Bool) :
    (b.remove stay).Holds hashv (items.filter stay) := by
  intro i
  refine ((h i).filter stay).trans (List.Perm.of_eq ?_)
  rw [List.filter_filter, List.filter_filter]
  exact List.filter_congr fun e _ => Bool.and_comm _ _

theorem Holds.mem_iff (h : b.Holds hashv items) (e : ε) :
    e ∈ b.chains (b.bucketOf (hashv e)) ↔ e ∈ items := by
  rw [(h _).mem_iff, List.mem_filter]
  exact and_iff_left (decide_eq_true rfl)

end Buckets

/-! ## Tables -/

/-- Elements at addresses, in an order and in buckets. -/
structure UtHash {α κ : Type} (key : α → κ) (hashFcn : κ → Nat) where
  items : List (Nat × α)
  buckets : Buckets (Nat × α)
  /-- Addresses from here on have not been used. -/
  next : Nat
  fresh : ∀ e ∈ items, e.1 < next
  nodup : (items.map Prod.fst).Nodup
  holds : buckets.Holds (fun e => hashFcn (key e.2)) items

namespace UtHash

variable {α κ : Type} {key : α → κ} {hashFcn : κ → Nat} {t : UtHash key hashFcn} {e : Nat × α}
  {k : κ} {a : Nat} {v : α} {stay : α → Bool}

def empty : UtHash key hashFcn := ⟨[], .make, 0, List.forall_mem_nil _, .nil, Buckets.holds_make⟩

/-- The elements in their order. -/
def entries (t : UtHash key hashFcn) : List α := t.items.map Prod.snd

theorem nodup_new (stay : α → Bool) (t : UtHash key hashFcn) (v : α) :
    ((Agenda.insertBefore (fun e => stay e.2) (t.next, v) t.items).map Prod.fst).Nodup := by
  rw [((Agenda.perm_insertBefore _ _ _).map Prod.fst).nodup_iff]
  refine List.nodup_cons.mpr ⟨fun hmem => ?_, t.nodup⟩
  obtain ⟨e, he, heq⟩ := List.mem_map.mp hmem
  exact Nat.lt_irrefl _ (heq ▸ t.fresh e he)

/-- `HASH_ADD_KEYPTR_INORDER`: behind the elements that stay in front. -/
def insert (stay : α → Bool) (t : UtHash key hashFcn) (v : α) : UtHash key hashFcn where
  items := Agenda.insertBefore (fun e => stay e.2) (t.next, v) t.items
  buckets := t.buckets.add (fun e => hashFcn (key e.2)) (t.items.length + 1) (t.next, v)
  next := t.next + 1
  fresh e he := (Agenda.mem_insertBefore.mp he).elim (fun heq => heq ▸ Nat.lt_succ_self _)
    fun he => Nat.lt_succ_of_lt (t.fresh e he)
  nodup := nodup_new stay t v
  holds := (t.holds.add _ _).perm (Agenda.perm_insertBefore _ _ _).symm

/-- `HASH_DELETE`: a table that gets empty is freed. -/
def delete (t : UtHash key hashFcn) (a : Nat) : UtHash key hashFcn where
  items := t.items.filter (·.1 ≠ a)
  buckets := if t.items.filter (·.1 ≠ a) = [] then .make else t.buckets.remove (·.1 ≠ a)
  next := t.next
  fresh e he := t.fresh e (List.mem_of_mem_filter he)
  nodup := t.nodup.sublist (List.filter_sublist.map Prod.fst)
  holds := by
    split
    · rename_i hnil
      rw [hnil]
      exact Buckets.holds_make
    · exact t.holds.remove _

/-- `HASH_FIND`: the first element of the chain that has the key. -/
def find [DecidableEq κ] (t : UtHash key hashFcn) (k : κ) : Option (Nat × α) :=
  (t.buckets.chains (t.buckets.bucketOf (hashFcn k))).find? fun e => key e.2 = k

/-! ### The order -/

@[simp] theorem entries_empty : (empty : UtHash key hashFcn).entries = [] := rfl

@[simp] theorem entries_insert (stay : α → Bool) (t : UtHash key hashFcn) (v : α) :
    (t.insert stay v).entries = Agenda.insertBefore stay v t.entries := by
  show (Agenda.insertBefore (fun e => stay e.2) (t.next, v) t.items).map Prod.snd = _
  unfold Agenda.insertBefore entries
  rw [List.map_append, List.map_cons, List.takeWhile_map, List.dropWhile_map]
  rfl

theorem entries_delete (t : UtHash key hashFcn) (a : Nat) :
    (t.delete a).entries.Sublist t.entries := List.filter_sublist.map Prod.snd

/-! ### What is found -/

theorem eq_of_address {d : Nat × α} (he : e ∈ t.items) (hd : d ∈ t.items) (h : e.1 = d.1) :
    e = d := List.inj_on_of_nodup_map t.nodup he hd h

variable [DecidableEq κ]

theorem find_some (h : t.find k = some e) : e ∈ t.items ∧ key e.2 = k := by
  have hkey := List.find?_some h
  rw [decide_eq_true_eq] at hkey
  have hmem := List.mem_of_find?_eq_some h
  rw [← hkey] at hmem
  exact ⟨(t.holds.mem_iff e).mp hmem, hkey⟩

theorem find_none (h : t.find k = none) : k ∉ t.entries.map key := by
  intro hmem
  obtain ⟨v, hv, rfl⟩ := List.mem_map.mp hmem
  obtain ⟨e, he, rfl⟩ := List.mem_map.mp hv
  exact List.find?_eq_none.mp h e ((t.holds.mem_iff e).mpr he) (decide_eq_true rfl)

/-- The elements that their keys find: of those with one key just one. -/
def found (t : UtHash key hashFcn) : List α :=
  (t.items.filter fun e => (t.find (key e.2)).map Prod.fst = some e.1).map Prod.snd

theorem found_sublist (t : UtHash key hashFcn) : t.found.Sublist t.entries :=
  List.filter_sublist.map Prod.snd

/-- Finding an element by its key is looking for the key among the found. -/
theorem find_eq (t : UtHash key hashFcn) (k : κ) :
    (t.find k).map Prod.snd = t.found.find? fun v => key v = k := by
  unfold found
  rw [List.find?_map]
  cases hf : t.find k with
  | none =>
    refine (Option.map_eq_none_iff.mpr (List.find?_eq_none.mpr fun e he hk => ?_)).symm
    exact find_none hf (List.mem_map.mpr ⟨e.2, List.mem_map_of_mem (List.mem_of_mem_filter he),
      of_decide_eq_true hk⟩)
  | some e =>
    obtain ⟨he, hkey⟩ := find_some hf
    refine congrArg (Option.map Prod.snd) (Eq.symm ?_)
    have hmem : e ∈ t.items.filter fun e => (t.find (key e.2)).map Prod.fst = some e.1 :=
      List.mem_filter.mpr ⟨he, by rw [hkey, hf]; exact decide_eq_true rfl⟩
    cases hd : (t.items.filter fun e => (t.find (key e.2)).map Prod.fst = some e.1).find?
        fun e => key e.2 = k with
    | none => exact absurd (decide_eq_true hkey) (List.find?_eq_none.mp hd e hmem)
    | some d =>
      have hkd := List.find?_some hd
      rw [decide_eq_true_eq] at hkd
      obtain ⟨hdmem, haddr⟩ := List.mem_filter.mp (List.mem_of_find?_eq_some hd)
      rw [hkd, hf, decide_eq_true_eq] at haddr
      exact hd.trans (congrArg some (eq_of_address hdmem he (Option.some.inj haddr).symm))

/-- If no two elements have one key, every element is found by its key. -/
theorem found_of_nodup (h : (t.entries.map key).Nodup) : t.found = t.entries := by
  unfold found entries
  rw [List.filter_eq_self.mpr fun e he => ?_]
  cases hf : t.find (key e.2) with
  | none =>
    exact absurd (List.mem_map_of_mem (List.mem_map_of_mem he)) (find_none hf)
  | some d =>
    obtain ⟨hd, hkey⟩ := find_some hf
    unfold entries at h
    rw [List.map_map] at h
    rw [List.inj_on_of_nodup_map h hd he hkey]
    exact decide_eq_true rfl

end UtHash

end AdaptiveMqtt.Lib
