import AdaptiveMqtt.Security.File
import AdaptiveMqtt.Topic.Check

/-!
# Pattern substitution

What `add__acl_pattern` stores of a pattern, with its `int` counts, and the loop of
`mosquitto_acl_check_default` that writes `local_acl`, by index, into a buffer whose size comes
from these counts in a `size_t`.

A pattern is cut into pieces such that every `%c` and every `%u` is one. There is one such cut;
the loop writes the values of its pieces, and the counts are those of its marks. A count is at
most the length of the pattern, and `aclfile__parse` adds only what `mosquitto_sub_topic_check`
accepts, so that no count gets near the largest `int`.
-/

namespace AdaptiveMqtt.Security

open Topic Lib

/-! ## The source -/

/-- The `strstr` loop that counts `%c` or `%u`. -/
def countInt (c : UInt8) (count : Int) : Bytes → Except CInt.Fault Int
  | [] | [_] => .ok count
  | a :: b :: s =>
    if a = percent ∧ b = c then
      match CInt.add count 1 with
      | .ok count => countInt c count s
      | .error fault => .error fault
    else countInt c count (b :: s)

structure AclPattern where
  topic : Bytes
  ccount : Int
  ucount : Int
  deriving DecidableEq, Repr

def addPattern (topic : Bytes) : Except CInt.Fault AclPattern :=
  match countInt 99 0 topic with
  | .error fault => .error fault
  | .ok ccount =>
    match countInt 117 0 topic with
    | .error fault => .error fault
    | .ok ucount => .ok ⟨topic, ccount, ucount⟩

def localAclLen (acl : AclPattern) (id : Bytes) (username : Option Bytes) : UInt64 :=
  let tlen := UInt64.ofNat acl.topic.length
  let clen := UInt64.ofNat id.length
  match username with
  | some name =>
    let ulen := UInt64.ofNat name.length
    tlen + UInt64.ofInt acl.ccount * (clen - 2) + UInt64.ofInt acl.ucount * (ulen - 2)
  | none => tlen + UInt64.ofInt acl.ccount * (clen - 2)

/-- The loop over `i`; `s` is what is written. Every turn moves `i` on. -/
def localAclLoop (topic id : Bytes) (username : Option Bytes) : Nat → Nat → Bytes → Bytes
  | 0, _, s => s
  | fuel + 1, i, s =>
    if i < topic.length then
      let a := topic.getD i 0
      -- `tlen` is not zero here, so that `tlen-1` does not wrap
      if i < topic.length - 1 ∧ a = percent then
        let b := topic.getD (i + 1) 0
        if b = 99 then localAclLoop topic id username fuel (i + 2) (s ++ id)
        else if username ≠ none ∧ b = 117 then
          localAclLoop topic id username fuel (i + 2) (s ++ username.getD [])
        else localAclLoop topic id username fuel (i + 1) (s ++ [a])
      else localAclLoop topic id username fuel (i + 1) (s ++ [a])
    else s

/-- `len` and `local_acl` for a pattern, or `none` if it is passed over. -/
def patternText (acl : AclPattern) (id : Bytes) (username : Option Bytes) :
    Option (UInt64 × Bytes) :=
  if acl.ucount ≠ 0 ∧ username = none then none
  else some (localAclLen acl id username,
    localAclLoop acl.topic id username acl.topic.length 0 [])

/-! ## Pieces -/

/-- A byte of a pattern, `%c` or `%u`. -/
inductive Piece where
  | text (b : UInt8)
  | client
  | user
  deriving DecidableEq, Repr

namespace Piece

def source : Piece → Bytes
  | text b => [b]
  | client => [percent, 99]
  | user => [percent, 117]

def value (id name : Bytes) : Piece → Bytes
  | text b => [b]
  | client => id
  | user => name

theorem source_ne_nil (piece : Piece) : piece.source ≠ [] := by
  cases piece <;> simp [source]

/-- A mark is a percent sign and a letter of its own. -/
theorem mark_source {mark : Piece} (h : mark ∈ [client, user]) :
    ∃ m, mark.source = [percent, m] ∧ m ≠ percent ∧ (m = 99 ∨ m = 117) := by
  simp only [List.mem_cons, List.not_mem_nil, or_false] at h
  rcases h with rfl | rfl
  · exact ⟨99, rfl, by decide, .inl rfl⟩
  · exact ⟨117, rfl, by decide, .inr rfl⟩

end Piece

/-- The pattern in pieces: every `%c` and every `%u` is one of them. -/
structure Cut (pattern : Bytes) (pieces : List Piece) : Prop where
  source : pieces.flatMap Piece.source = pattern
  marks : ∀ mark ∈ [Piece.client, Piece.user], ∀ u v, pattern = u ++ mark.source ++ v →
    ∃ pre post, pieces = pre ++ mark :: post ∧ pre.flatMap Piece.source = u ∧
      post.flatMap Piece.source = v

/-- The pieces, from the left. -/
def cut : Bytes → List Piece
  | [] => []
  | [a] => [.text a]
  | a :: b :: s =>
    if a = percent ∧ b = 99 then .client :: cut s
    else if a = percent ∧ b = 117 then .user :: cut s
    else .text a :: cut (b :: s)

section Cut

variable {p s u v : Bytes} {a b : UInt8} {mark piece : Piece} {pieces : List Piece}

theorem cut_source (p : Bytes) : (cut p).flatMap Piece.source = p := by
  fun_induction cut p with
  | case1 => rfl
  | case2 a => rfl
  | case3 a b s h ih =>
    obtain ⟨rfl, rfl⟩ := h
    rw [List.flatMap_cons, ih]
    rfl
  | case4 a b s h h' ih =>
    obtain ⟨rfl, rfl⟩ := h'
    rw [List.flatMap_cons, ih]
    rfl
  | case5 a b s h h' ih =>
    rw [List.flatMap_cons, ih]
    rfl

/-- A mark of `x y …` where `y` is no percent sign is `x y` itself, or comes after it. -/
theorem mark_after (hmark : mark ∈ [Piece.client, Piece.user]) (hb : b ≠ percent)
    (h : a :: b :: s = u ++ mark.source ++ v) :
    (u = [] ∧ mark.source = [a, b] ∧ v = s) ∨
      ∃ u', u = a :: b :: u' ∧ s = u' ++ mark.source ++ v := by
  obtain ⟨m, hm, -, -⟩ := Piece.mark_source hmark
  rw [hm] at h ⊢
  match u, h with
  | [], h =>
    simp only [List.nil_append, List.cons_append, List.cons.injEq] at h
    obtain ⟨rfl, rfl, rfl⟩ := h
    exact .inl ⟨rfl, rfl, rfl⟩
  | [x], h =>
    simp only [List.nil_append, List.cons_append, List.cons.injEq] at h
    exact absurd h.2.1 hb
  | x :: y :: u', h =>
    simp only [List.cons_append, List.cons.injEq] at h
    obtain ⟨rfl, rfl, h⟩ := h
    exact .inr ⟨u', rfl, by simpa using h⟩

/-- The pieces after a first one. -/
theorem marks_cons (piece : Piece) (h : ∃ pre post, pieces = pre ++ mark :: post ∧
      pre.flatMap Piece.source = u ∧ post.flatMap Piece.source = v) :
    ∃ pre post, piece :: pieces = pre ++ mark :: post ∧
      pre.flatMap Piece.source = piece.source ++ u ∧ post.flatMap Piece.source = v := by
  obtain ⟨pre, post, rfl, rfl, rfl⟩ := h
  exact ⟨piece :: pre, post, rfl, List.flatMap_cons, rfl⟩

theorem cut_marks (hmark : mark ∈ [Piece.client, Piece.user]) (h : p = u ++ mark.source ++ v) :
    ∃ pre post, cut p = pre ++ mark :: post ∧ pre.flatMap Piece.source = u ∧
      post.flatMap Piece.source = v := by
  obtain ⟨m, hm, hne, hletter⟩ := Piece.mark_source hmark
  fun_induction cut p generalizing u with
  | case1 => simp [hm] at h
  | case2 a =>
    have hlen := congrArg List.length h
    simp only [hm, List.length_append, List.length_cons, List.length_nil] at hlen
    omega
  | case3 a b s hc ih =>
    obtain ⟨rfl, rfl⟩ := hc
    rcases mark_after hmark (by decide) h with ⟨rfl, hab, rfl⟩ | ⟨u', rfl, hrest⟩
    · have : mark = .client := by
        simp only [List.mem_cons, List.not_mem_nil, or_false] at hmark
        rcases hmark with rfl | rfl
        · rfl
        · simp [Piece.source] at hab
      exact ⟨[], cut v, by rw [this]; rfl, rfl, cut_source v⟩
    · exact marks_cons .client (ih hrest)
  | case4 a b s hc hu ih =>
    obtain ⟨rfl, rfl⟩ := hu
    rcases mark_after hmark (by decide) h with ⟨rfl, hab, rfl⟩ | ⟨u', rfl, hrest⟩
    · have : mark = .user := by
        simp only [List.mem_cons, List.not_mem_nil, or_false] at hmark
        rcases hmark with rfl | rfl
        · simp [Piece.source] at hab
        · rfl
      exact ⟨[], cut v, by rw [this]; rfl, rfl, cut_source v⟩
    · exact marks_cons .user (ih hrest)
  | case5 a b s hc hu ih =>
    cases u with
    | nil =>
      rw [hm] at h
      simp only [List.nil_append, List.cons_append, List.cons.injEq] at h
      obtain ⟨rfl, rfl, -⟩ := h
      rcases hletter with rfl | rfl
      · exact absurd ⟨rfl, rfl⟩ hc
      · exact absurd ⟨rfl, rfl⟩ hu
    | cons x u =>
      simp only [List.cons_append, List.cons.injEq] at h
      obtain ⟨rfl, h⟩ := h
      exact marks_cons (.text a) (ih h)

theorem cut_cut (p : Bytes) : Cut p (cut p) :=
  ⟨cut_source p, fun _ hmark _ _ => cut_marks hmark⟩

theorem Cut.tail (h : Cut (piece.source ++ p) (piece :: pieces)) : Cut p pieces := by
  have hsource : pieces.flatMap Piece.source = p := by
    have := h.source
    rw [List.flatMap_cons] at this
    exact List.append_cancel_left this
  refine ⟨hsource, fun mark hmark u v hp => ?_⟩
  obtain ⟨pre, post, heq, hpre, hpost⟩ := h.marks mark hmark (piece.source ++ u) v
    (by rw [hp]; simp only [List.append_assoc])
  cases pre with
  | nil =>
    rw [List.flatMap_nil] at hpre
    exact absurd (List.append_eq_nil_iff.mp hpre.symm).1 piece.source_ne_nil
  | cons x pre =>
    simp only [List.cons_append, List.cons.injEq] at heq
    obtain ⟨rfl, rfl⟩ := heq
    rw [List.flatMap_cons] at hpre
    exact ⟨pre, post, rfl, List.append_cancel_left hpre, hpost⟩

theorem Cut.starts (hmark : mark ∈ [Piece.client, Piece.user]) (h : Cut (mark.source ++ p) pieces) :
    ∃ rest, pieces = mark :: rest ∧ Cut p rest := by
  obtain ⟨pre, post, rfl, hpre, -⟩ := h.marks mark hmark [] p rfl
  cases pre with
  | nil => exact ⟨post, rfl, h.tail⟩
  | cons x pre =>
    rw [List.flatMap_cons] at hpre
    exact absurd (List.append_eq_nil_iff.mp hpre).1 x.source_ne_nil

/-- Only the empty pattern has no pieces. -/
theorem Cut.nil (h : Cut [] pieces) : pieces = [] := by
  cases pieces with
  | nil => rfl
  | cons x pieces =>
    have hsource := h.source
    rw [List.flatMap_cons] at hsource
    exact absurd (List.append_eq_nil_iff.mp hsource).1 x.source_ne_nil

theorem Cut.text (h : Cut (a :: p) (.text b :: pieces)) : b = a ∧ Cut p pieces := by
  have hsource := h.source
  rw [List.flatMap_cons] at hsource
  obtain ⟨rfl, -⟩ := List.cons.inj hsource
  exact ⟨rfl, @Cut.tail p (.text b) pieces h⟩

theorem Cut.eq_cut (h : Cut p pieces) : pieces = cut p := by
  fun_induction cut p generalizing pieces with
  | case1 => exact h.nil
  | case2 a =>
    cases pieces with
    | nil => cases h.source
    | cons x pieces =>
      have hsource := h.source
      rw [List.flatMap_cons] at hsource
      cases x with
      | text b =>
        obtain ⟨rfl, hrest⟩ := h.text
        rw [hrest.nil]
      | client => cases hsource
      | user => cases hsource
  | case3 a b s hc ih =>
    obtain ⟨rfl, rfl⟩ := hc
    obtain ⟨rest, rfl, hrest⟩ := @Cut.starts s .client pieces (by simp) h
    rw [ih hrest]
  | case4 a b s hc hu ih =>
    obtain ⟨rfl, rfl⟩ := hu
    obtain ⟨rest, rfl, hrest⟩ := @Cut.starts s .user pieces (by simp) h
    rw [ih hrest]
  | case5 a b s hc hu ih =>
    cases pieces with
    | nil => cases h.source
    | cons x pieces =>
      have hsource := h.source
      rw [List.flatMap_cons] at hsource
      cases x with
      | text b' =>
        obtain ⟨rfl, hrest⟩ := h.text
        rw [ih hrest]
      | client =>
        simp only [Piece.source, List.cons_append, List.cons.injEq] at hsource
        exact absurd ⟨hsource.1.symm, hsource.2.1.symm⟩ hc
      | user =>
        simp only [Piece.source, List.cons_append, List.cons.injEq] at hsource
        exact absurd ⟨hsource.1.symm, hsource.2.1.symm⟩ hu

end Cut

/-! ## The loops -/

section Loop

variable {mark : Piece} {topic id : Bytes} {username : Option Bytes}

theorem drop_eq_getD {i : Nat} (h : i < topic.length) :
    topic.drop i = topic.getD i 0 :: topic.drop (i + 1) := by
  rw [← @List.getElem_eq_getD _ topic i h 0, List.drop_eq_getElem_cons h]

theorem localAcl_step (a b : UInt8) (s : Bytes) : localAcl id username (a :: b :: s) =
    if a = percent ∧ b = 99 then id ++ localAcl id username s
    else if username ≠ none ∧ a = percent ∧ b = 117 then
      username.getD [] ++ localAcl id username s
    else a :: localAcl id username (b :: s) := by
  cases username with
  | none => simp only [localAcl, ne_eq, not_true_eq_false, false_and, if_false]
  | some name =>
    rw [localAcl]
    simp only [ne_eq, reduceCtorEq, not_false_eq_true, true_and, Option.getD_some]

theorem localAclLoop_eq {fuel i : Nat} {s : Bytes} (h : topic.length - i ≤ fuel) :
    localAclLoop topic id username fuel i s = s ++ localAcl id username (topic.drop i) := by
  induction fuel generalizing i s with
  | zero =>
    rw [List.drop_eq_nil_of_le (by omega), localAcl, List.append_nil]
    rfl
  | succ fuel ih =>
    rw [localAclLoop]
    by_cases hi : i < topic.length
    · rw [if_pos hi]
      simp only
      by_cases hlast : i + 1 < topic.length
      · have htwo : topic.drop i =
            topic.getD i 0 :: topic.getD (i + 1) 0 :: topic.drop (i + 2) := by
          rw [drop_eq_getD hi, drop_eq_getD hlast]
        have hone : topic.drop (i + 1) = topic.getD (i + 1) 0 :: topic.drop (i + 2) :=
          drop_eq_getD hlast
        rw [htwo, localAcl_step, ← hone, ih (by omega), ih (by omega), ih (by omega)]
        generalize topic.getD i 0 = a, topic.getD (i + 1) 0 = b
        by_cases ha : a = percent
        · rw [if_pos ⟨by omega, ha⟩]
          by_cases hc : b = 99
          · rw [if_pos hc, if_pos ⟨ha, hc⟩, List.append_assoc]
          · have hmiss : ¬ (a = percent ∧ b = 99) := fun h => hc h.2
            rw [if_neg hc, if_neg hmiss]
            by_cases hu : username ≠ none ∧ b = 117
            · rw [if_pos hu, if_pos ⟨hu.1, ha, hu.2⟩, List.append_assoc]
            · have hmiss' : ¬ (username ≠ none ∧ a = percent ∧ b = 117) :=
                fun h => hu ⟨h.1, h.2.2⟩
              rw [if_neg hu, if_neg hmiss', List.append_assoc]
              rfl
        · have hmiss : ¬ (a = percent ∧ b = 99) := fun h => ha h.1
          have hmiss' : ¬ (username ≠ none ∧ a = percent ∧ b = 117) := fun h => ha h.2.1
          rw [if_neg fun h => ha h.2, if_neg hmiss, if_neg hmiss', List.append_assoc]
          rfl
      · have hone : topic.drop i = [topic.getD i 0] := by
          rw [drop_eq_getD hi, List.drop_eq_nil_of_le (by omega)]
        rw [if_neg fun hlt => hlast (by omega), ih (by omega), hone,
          List.drop_eq_nil_of_le (by omega), localAcl, localAcl, List.append_nil]
    · rw [if_neg hi, List.drop_eq_nil_of_le (by omega), localAcl, List.append_nil]

theorem countPattern_user (p : Bytes) : countPattern 117 p = (cut p).count .user := by
  fun_induction cut p with
  | case1 => rfl
  | case2 a => rfl
  | case3 a b s h ih =>
    obtain ⟨rfl, rfl⟩ := h
    rw [countPattern_miss (by decide), countPattern_skip (by decide),
      List.count_cons_of_ne (by decide), ih]
  | case4 a b s h h' ih => rw [countPattern_hit h', List.count_cons_self, ih]
  | case5 a b s h h' ih =>
    rw [countPattern_miss h', List.count_cons_of_ne (by simp), ih]

/-- What is written are the values of the pieces. -/
theorem localAcl_cut (h : username = none → Piece.user ∉ cut topic) :
    localAcl id username topic = (cut topic).flatMap (Piece.value id (username.getD [])) := by
  fun_induction cut topic with
  | case1 => rfl
  | case2 a => rfl
  | case3 a b s hc ih =>
    rw [localAcl_step, if_pos hc, List.flatMap_cons,
      ih fun hnone hmem => h hnone (List.mem_cons_of_mem _ hmem)]
    rfl
  | case4 a b s hc hu ih =>
    have hsome : username ≠ none := fun hnone => h hnone List.mem_cons_self
    rw [localAcl_step, if_neg hc, if_pos ⟨hsome, hu⟩, List.flatMap_cons,
      ih fun hnone hmem => h hnone (List.mem_cons_of_mem _ hmem)]
    rfl
  | case5 a b s hc hu ih =>
    rw [localAcl_step, if_neg hc, if_neg fun h => hu h.2, List.flatMap_cons,
      ih fun hnone hmem => h hnone (List.mem_cons_of_mem _ hmem)]
    rfl

/-- A mark is a piece where the pattern has it. -/
theorem mem_cut (hmark : mark ∈ [Piece.client, Piece.user]) :
    mark ∈ cut topic ↔ ∃ u v, topic = u ++ mark.source ++ v := by
  refine ⟨fun h => ?_, fun ⟨u, v, h⟩ => ?_⟩
  · obtain ⟨pre, post, hcut⟩ := List.append_of_mem h
    refine ⟨pre.flatMap Piece.source, post.flatMap Piece.source, ?_⟩
    have hsource := cut_source topic
    rw [hcut, List.flatMap_append, List.flatMap_cons] at hsource
    rw [← hsource, List.append_assoc]
  · obtain ⟨pre, post, hcut, -, -⟩ := cut_marks hmark h
    rw [hcut]
    exact List.mem_append_right pre List.mem_cons_self

theorem ofInt_natCast (n : Nat) : UInt64.ofInt n = UInt64.ofNat n := by
  have hmod : ((n : Int) % 2 ^ 64).toNat = n % 2 ^ 64 := by omega
  rw [UInt64.ofInt, hmod, UInt64.ofNat_mod_size]

theorem ofInt_sub_two (n : Nat) : UInt64.ofInt (n - 2) = UInt64.ofNat n - 2 := by
  rw [Int.sub_eq_add_neg, UInt64.ofInt_add, UInt64.ofInt_neg, ofInt_natCast,
    UInt64.sub_eq_add_neg]
  rfl

/-- `size_t` arithmetic gives the number of bytes. -/
theorem localAclLen_eq {acl : AclPattern} (hc : acl.ccount = countPattern 99 acl.topic)
    (hu : acl.ucount = countPattern 117 acl.topic) :
    localAclLen acl id username = UInt64.ofNat (localAcl id username acl.topic).length := by
  have hlen := congrArg UInt64.ofInt (length_localAcl id username acl.topic)
  rw [← hc, ← hu] at hlen
  cases username with
  | none =>
    simp only [Option.elim_none, Int.add_zero, UInt64.ofInt_add, UInt64.ofInt_mul, ofInt_sub_two,
      ofInt_natCast] at hlen
    exact hlen.symm
  | some name =>
    simp only [Option.elim_some, UInt64.ofInt_add, UInt64.ofInt_mul, ofInt_sub_two,
      ofInt_natCast] at hlen
    exact hlen.symm

end Loop

/-! ## The counts -/

section Count

variable {c : UInt8} {s topic pattern id : Bytes} {username : Option Bytes} {acl : AclPattern}

theorem countPattern_le (c : UInt8) (s : Bytes) : countPattern c s ≤ s.length := by
  fun_induction countPattern c s with
  | case1 => exact Nat.le_refl 0
  | case2 a => exact Nat.zero_le _
  | case3 a b s h ih =>
    simp only [List.length_cons]
    omega
  | case4 a b s h ih =>
    rw [List.length_cons]
    omega

theorem countInt_eq {n : Nat} (hn : n < 2 ^ 31) : countInt c n s =
    if n + countPattern c s < 2 ^ 31 then .ok ((n + countPattern c s : Nat) : Int)
    else .error .overflow := by
  fun_induction countPattern c s generalizing n with
  | case1 => rw [countInt, Nat.add_zero, if_pos hn]
  | case2 a => rw [countInt, Nat.add_zero, if_pos hn]
  | case3 a b s h ih =>
    rw [countInt, if_pos h]
    by_cases hfits : n + 1 < 2 ^ 31
    · rw [fits_succ hfits]
      simp only
      rw [ih hfits, Nat.add_assoc n 1, Nat.add_comm 1]
    · rw [overflows_succ (by omega), if_neg (by omega)]
  | case4 a b s h ih => rw [countInt, if_neg h, ih hn]

theorem countInt_ok {count : Int} (h : countInt c 0 s = .ok count) : count = countPattern c s := by
  have hcount := @countInt_eq c s 0 (by decide)
  rw [Int.natCast_zero, h, Nat.zero_add] at hcount
  split at hcount
  · exact Except.ok.inj hcount
  · cases hcount

theorem countInt_fits (h : s.length < 2 ^ 31) : countInt c 0 s = .ok (countPattern c s : Int) := by
  have hle := countPattern_le c s
  have hcount := @countInt_eq c s 0 (by decide)
  rw [Int.natCast_zero, Nat.zero_add, if_pos (by omega)] at hcount
  exact hcount

theorem addPattern_ok (h : addPattern topic = .ok acl) :
    acl = ⟨topic, countPattern 99 topic, countPattern 117 topic⟩ := by
  unfold addPattern at h
  split at h
  · cases h
  · rename_i ccount hc
    split at h
    · cases h
    · rename_i ucount hu
      rw [← Except.ok.inj h, countInt_ok hc, countInt_ok hu]

theorem addPattern_of_check (h : mosquittoSubTopicCheckInt topic = .ok Rc.success) :
    ∃ acl, addPattern topic = .ok acl := by
  have hlen : topic.length < 2 ^ 31 := by
    rw [mosquittoSubTopicCheckInt_eq, mosquittoSubTopicCheck_eq] at h
    split at h
    · have hcheck := (checkResult_success.mp (Except.ok.inj h)).2.1
      omega
    · cases h
  refine ⟨⟨topic, countPattern 99 topic, countPattern 117 topic⟩, ?_⟩
  rw [addPattern, countInt_fits hlen]
  simp only
  rw [countInt_fits hlen]

/-- What the pattern is taken for in an access check. -/
theorem patternDecides_eq (h : addPattern pattern = .ok acl) (topic : Bytes)
    (access bits : AccessBits) :
    patternDecides id username topic access (patternAcl pattern bits) =
      (patternText acl id username).bind fun text =>
        aclDecides text.2 topic access (patternAcl pattern bits) := by
  obtain rfl := addPattern_ok h
  have huser : ((countPattern 117 pattern : Int) ≠ 0 ∧ username = none) ↔
      (countPattern 117 pattern ≠ 0 ∧ username = none) := by
    rw [Ne, Int.natCast_eq_zero]
  rw [patternDecides, patternText, patternAcl]
  simp only [huser]
  split
  · rfl
  · rw [localAclLoop_eq (by omega), List.drop_zero, List.nil_append]
    rfl

end Count

/-- **The substitution is exact**: no count of a pattern that `aclfile__parse` adds overflows, a
pattern is passed over if it has a `%u` and there is no user name, and what is written otherwise
are the values of its pieces, in a buffer of their length. -/
theorem acl_pattern_exact (pattern id : Bytes) (username : Option Bytes) :
    (mosquittoSubTopicCheckInt pattern = .ok Rc.success → ∃ acl, addPattern pattern = .ok acl) ∧
      (∃ pieces, Cut pattern pieces) ∧
      ∀ acl, addPattern pattern = .ok acl →
        (patternText acl id username = none ↔
          username = none ∧ ∃ u v, pattern = u ++ [percent, 117] ++ v) ∧
        ∀ len text, patternText acl id username = some (len, text) →
          (∀ pieces, Cut pattern pieces →
            text = pieces.flatMap (Piece.value id (username.getD []))) ∧
          len = UInt64.ofNat text.length ∧ (text.length < 2 ^ 64 → len.toNat = text.length) := by
  refine ⟨addPattern_of_check, ⟨cut pattern, cut_cut pattern⟩, fun acl hacl => ?_⟩
  obtain rfl := addPattern_ok hacl
  have huser : (countPattern 117 pattern : Int) ≠ 0 ↔ Piece.user ∈ cut pattern := by
    rw [← List.count_pos_iff, ← countPattern_user]
    omega
  have hmem : Piece.user ∈ cut pattern ↔ ∃ u v, pattern = u ++ [percent, 117] ++ v :=
    @mem_cut .user pattern (by simp)
  refine ⟨?_, fun len text htext => ?_⟩
  · rw [← hmem, ← huser, patternText]
    split
    · rename_i h
      exact ⟨fun _ => ⟨h.2, h.1⟩, fun _ => rfl⟩
    · rename_i h
      exact ⟨fun hnone => (nomatch hnone), fun h' => absurd ⟨h'.2, h'.1⟩ h⟩
  · rw [patternText] at htext
    split at htext
    · cases htext
    rename_i hnot
    obtain ⟨rfl, rfl⟩ := Prod.mk.inj (Option.some.inj htext)
    rw [localAclLoop_eq (by simp), List.drop_zero, List.nil_append, localAclLen_eq rfl rfl]
    refine ⟨fun pieces hpieces => ?_, rfl, fun hlt => UInt64.toNat_ofNat_of_lt' hlt⟩
    rw [hpieces.eq_cut]
    exact localAcl_cut fun hnone h => hnot ⟨huser.mpr h, hnone⟩

end AdaptiveMqtt.Security
