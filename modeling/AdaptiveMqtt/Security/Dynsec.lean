import AdaptiveMqtt.Lib.Agenda
import AdaptiveMqtt.Lib.Word
import AdaptiveMqtt.Topic.Model

/-!
# Dynamic security

`plugins/dynamic-security`: the entries of a role and the roles of a client or a group are kept
in the order of their priorities by `HASH_ADD_KEYPTR_INORDER`, and the first entry that matches
decides. The comparison is a difference of two `int`s, so that the order is right exactly when
all differences fit.
-/

namespace AdaptiveMqtt.Security

open Lib Topic

/-! ## JSON -/

/-- A `cJSON` item. -/
inductive CJson where
  | bool (value : Bool)
  | number (valueint : Int32)
  | string (valuestring : Bytes)
  | other
  deriving DecidableEq, Repr

/-- An element of `"acls"`: what `cJSON_GetObjectItem` finds under its names. -/
structure JAcl where
  acltype : Option CJson
  priority : Option CJson
  allow : Option CJson
  topic : Option CJson
  deriving DecidableEq, Repr

def jsonGetBool (jtmp : Option CJson) (value optional defaultValue : Bool) : Rc × Bool :=
  let value := if optional then defaultValue else value
  match jtmp with
  | some (.bool b) => (Rc.success, b)
  | some _ => (Rc.inval, value)
  | none => if optional then (Rc.success, value) else (Rc.inval, value)

def jsonGetInt (jtmp : Option CJson) (value : Int32) (optional : Bool) (defaultValue : Int32) :
    Rc × Int32 :=
  let value := if optional then defaultValue else value
  match jtmp with
  | some (.number valueint) => (Rc.success, valueint)
  | some _ => (Rc.inval, value)
  | none => if optional then (Rc.success, value) else (Rc.inval, value)

def tolower (c : UInt8) : UInt8 := if 65 ≤ c ∧ c ≤ 90 then c + 32 else c

/-- `strcasecmp(a, b) == 0`. -/
def sameIgnoringCase (a b : Bytes) : Bool := a.map tolower = b.map tolower

def strcmp (a b : Bytes) : Int32 := if a < b then -1 else if b < a then 1 else 0

/-! ## Entries and roles -/

/-- `HASH_ADD_KEYPTR_INORDER`: before the first element that compares greater. -/
def hashAddInorder {α : Type} (cmp : α → α → Int32) (new : α) (l : List α) : List α :=
  Agenda.insertBefore (fun e => ¬ 0 < cmp e new) new l

structure DynsecAcl where
  topic : Bytes
  priority : Int32
  allow : Bool
  deriving DecidableEq, Repr

structure DynsecRole where
  rolename : Bytes
  publishCRecv : List DynsecAcl
  deriving DecidableEq, Repr

structure DynsecRolelist where
  rolename : Bytes
  role : DynsecRole
  priority : Int32
  deriving DecidableEq, Repr

def insertAclCmp (a b : DynsecAcl) : Int32 := b.priority - a.priority

/-- The entry that `dynsec_roles__acl_load` makes of an element, if it makes one. -/
def aclOf (key : Bytes) (jAcl : JAcl) : Option DynsecAcl :=
  match jAcl.acltype with
  | some (.string valuestring) =>
    if !sameIgnoringCase valuestring key then none
    else
      let priority := (jsonGetInt jAcl.priority 0 true 0).2
      let allow := (jsonGetBool jAcl.allow false true false).2
      let allow := match jAcl.allow with
        | some (.bool b) => b
        | _ => allow
      match jAcl.topic with
      | some (.string topic) => some ⟨topic, priority, allow⟩
      | _ => none
  | _ => none

def dynsecRolesAclLoad (jAcls : List JAcl) (key : Bytes) (acllist : List DynsecAcl) :
    List DynsecAcl :=
  jAcls.foldl (fun acllist jAcl =>
    match aclOf key jAcl with
    | none => acllist
    | some acl => hashAddInorder insertAclCmp acl acllist) acllist

def aclTypePubCRecv : Bytes := ascii "publishClientReceive"

def rolelistCmp (a b : DynsecRolelist) : Int32 :=
  let prio := b.priority - a.priority
  if prio = 0 then strcmp a.rolename b.rolename else prio

def alreadyExists : Rc := 31

def dynsecRolelistAdd (base : List DynsecRolelist) (role : Option DynsecRole) (priority : Int32) :
    Rc × List DynsecRolelist :=
  match role with
  | none => (Rc.inval, base)
  | some role =>
    if base.any (·.rolename = role.rolename) then (alreadyExists, base)
    else (Rc.success, hashAddInorder rolelistCmp ⟨role.rolename, role, priority⟩ base)

/-! ## The check -/

/-- The inner loop of `acl_check_publish_c_recv`. -/
def aclLoop (topic : Bytes) : List DynsecAcl → Option Rc
  | [] => none
  | acl :: rest =>
    if (mosquittoTopicMatchesSub acl.topic topic).2 then
      some (if acl.allow then Rc.success else Rc.aclDenied)
    else aclLoop topic rest

def aclCheckPublishCRecv (topic : Bytes) : List DynsecRolelist → Rc
  | [] => Rc.notFound
  | rolelist :: rest =>
    match aclLoop topic rolelist.role.publishCRecv with
    | some rc => rc
    | none => aclCheckPublishCRecv topic rest

def DynsecAcl.decision (acl : DynsecAcl) : Rc := if acl.allow then Rc.success else Rc.aclDenied

/-- The entry says something about the topic. -/
def DynsecAcl.covers (topic : Bytes) (acl : DynsecAcl) : Bool :=
  (mosquittoTopicMatchesSub acl.topic topic).2

/-! ## The order -/

/-- A role with its entries, and the priority it is added with. -/
structure Grant where
  rolename : Bytes
  acls : List JAcl
  priority : Int32
  deriving DecidableEq, Repr

def Grant.entries (g : Grant) : List DynsecAcl := g.acls.filterMap (aclOf aclTypePubCRecv)

def Grant.role (g : Grant) : DynsecRole :=
  ⟨g.rolename, dynsecRolesAclLoad g.acls aclTypePubCRecv []⟩

/-- The roles are added one after the other. -/
def rolelistOf (grants : List Grant) : List DynsecRolelist :=
  grants.foldl (fun base g => (dynsecRolelistAdd base (some g.role) g.priority).2) []

/-- The same grants in another order, with the entries of every role in another order. -/
def Reordered (grants grants' : List Grant) : Prop :=
  ∃ shuffle : Grant → List JAcl, (∀ g ∈ grants, g.acls.Perm (shuffle g)) ∧
    (grants.map fun g => { g with acls := shuffle g }).Perm grants'

/-- The check visits roles and entries in non-increasing priority, and the first entry that
matches decides. -/
structure ByPriority (base : List DynsecRolelist) : Prop where
  roles : base.Pairwise fun a b => b.priority ≤ a.priority
  entries : ∀ r ∈ base, r.role.publishCRecv.Pairwise fun a b => b.priority ≤ a.priority
  decision : ∀ topic, aclCheckPublishCRecv topic base =
    ((base.flatMap (·.role.publishCRecv)).find? (DynsecAcl.covers topic)).elim Rc.notFound
      DynsecAcl.decision

/-- The differences of all priorities are `int`s. -/
structure Comparable (grants : List Grant) : Prop where
  roles : ∀ g ∈ grants, ∀ g' ∈ grants, g.rolename ≠ g'.rolename →
    CInt.Fits (g.priority.toInt - g'.priority.toInt)
  entries : ∀ g ∈ grants, ∀ a ∈ g.entries, ∀ a' ∈ g.entries,
    CInt.Fits (a.priority.toInt - a'.priority.toInt)

section Difference

variable {x y : Int32}

theorem fits_toInt (x : Int32) : CInt.Fits x.toInt := ⟨x.le_toInt, x.toInt_lt⟩

theorem pos_sub_iff : 0 < x - y ↔ 0 < CInt.wrap (x.toInt - y.toInt) := by
  rw [Int32.lt_iff_toInt_lt, Int32.toInt_sub]
  rfl

/-- The difference of two priorities orders them if it fits. -/
theorem pos_sub_of_fits (h : CInt.Fits (x.toInt - y.toInt)) : 0 < x - y ↔ y < x := by
  rw [pos_sub_iff, CInt.wrap_of_fits h, Int32.lt_iff_toInt_lt]
  omega

theorem not_pos_sub (hlt : y < x) (h : ¬ CInt.Fits (x.toInt - y.toInt)) : ¬ 0 < x - y := by
  rw [pos_sub_iff]
  exact mt (CInt.wrap_sub_of_lt (fits_toInt x) (fits_toInt y) (Int32.lt_iff_toInt_lt.mp hlt)).mp h

theorem sub_eq_zero : x - y = 0 ↔ x = y := by
  rw [← Int32.toInt_inj, Int32.toInt_sub, ← @Int32.toInt_inj x y]
  exact CInt.wrap_sub_eq_zero (fits_toInt x) (fits_toInt y)

end Difference

/-! ## Insertion in order -/

section Inorder

variable {α : Type} {prio : α → Int32} {cmp : α → α → Int32} {new e : α} {l : List α}

/-- A comparison that fits keeps the order. -/
theorem sorted_hashAdd (h : l.Pairwise fun a b => prio b ≤ prio a)
    (hbefore : ∀ e ∈ l, 0 < cmp e new → prio e ≤ prio new)
    (hafter : ∀ e ∈ l, ¬ 0 < cmp e new → prio new ≤ prio e) :
    (hashAddInorder cmp new l).Pairwise fun a b => prio b ≤ prio a := by
  have hneg : ∀ {a b : α}, prio b ≤ prio a ↔ -(prio a).toInt ≤ -(prio b).toInt := by
    intro a b
    rw [Int32.le_iff_toInt_le]
    omega
  simp only [hneg] at h hbefore hafter ⊢
  refine Agenda.sorted_insertBefore h (fun e he hless => ?_) (fun e he hless => ?_)
  · exact hafter e he (of_decide_eq_true hless)
  · exact hbefore e he (not_not.mp fun hpos => hless (decide_eq_true hpos))

theorem mem_hashAdd : e ∈ hashAddInorder cmp new l ↔ e = new ∨ e ∈ l := Agenda.mem_insertBefore

theorem sublist_hashAdd : List.Sublist l (hashAddInorder cmp new l) :=
  Agenda.sublist_insertBefore _ new l

theorem hashAdd_behind (h : ¬ 0 < cmp e new) : hashAddInorder cmp new [e] = [e, new] := by
  unfold hashAddInorder Agenda.insertBefore
  simp only [List.takeWhile_cons, List.dropWhile_cons, decide_eq_true h]
  rfl

end Inorder

/-! ## The decision -/

theorem aclLoop_eq (topic : Bytes) (acllist : List DynsecAcl) :
    aclLoop topic acllist = (acllist.find? (DynsecAcl.covers topic)).map DynsecAcl.decision := by
  induction acllist with
  | nil => rfl
  | cons acl rest ih =>
    rw [aclLoop, List.find?_cons]
    by_cases h : (mosquittoTopicMatchesSub acl.topic topic).2 = true
    · have hcovers : acl.covers topic = true := h
      rw [if_pos h, hcovers]
      rfl
    · have hcovers : acl.covers topic = false := Bool.eq_false_iff.mpr h
      rw [if_neg h, hcovers, ih]

/-- The two loops look for the first entry that covers the topic. -/
theorem aclCheck_eq (topic : Bytes) (base : List DynsecRolelist) :
    aclCheckPublishCRecv topic base =
      ((base.flatMap (·.role.publishCRecv)).find? (DynsecAcl.covers topic)).elim Rc.notFound
        DynsecAcl.decision := by
  induction base with
  | nil => rfl
  | cons r rest ih =>
    rw [aclCheckPublishCRecv, aclLoop_eq, List.flatMap_cons, List.find?_append]
    cases r.role.publishCRecv.find? (DynsecAcl.covers topic) with
    | none => exact ih
    | some acl => rfl

/-! ## The order of the priorities -/

section Order

variable {base : List DynsecRolelist} {acllist : List DynsecAcl} {jAcls : List JAcl}
  {grants grants' : List Grant} {key : Bytes}

theorem aclLoad_eq (jAcls : List JAcl) (acllist : List DynsecAcl) :
    dynsecRolesAclLoad jAcls key acllist = (jAcls.filterMap (aclOf key)).foldl
      (fun acllist acl => hashAddInorder insertAclCmp acl acllist) acllist := by
  induction jAcls generalizing acllist with
  | nil => rfl
  | cons jAcl jAcls ih =>
    unfold dynsecRolesAclLoad at ih ⊢
    rw [List.foldl_cons, ih, List.filterMap_cons]
    cases aclOf key jAcl with
    | none => rfl
    | some acl => rfl

/-- Entries whose differences fit are loaded in the order of their priorities. -/
theorem sorted_aclLoad {acls : List DynsecAcl}
    (h : acllist.Pairwise fun a b => b.priority ≤ a.priority)
    (hfits : ∀ a ∈ acls ++ acllist, ∀ a' ∈ acls ++ acllist,
      CInt.Fits (a.priority.toInt - a'.priority.toInt)) :
    (acls.foldl (fun acllist acl => hashAddInorder insertAclCmp acl acllist) acllist).Pairwise
      fun a b => b.priority ≤ a.priority := by
  induction acls generalizing acllist with
  | nil => exact h
  | cons acl acls ih =>
    have hpos : ∀ e ∈ acllist, 0 < insertAclCmp e acl ↔ e.priority < acl.priority := fun e he =>
      pos_sub_of_fits (hfits acl (by simp) e (by simp [he]))
    refine ih (sorted_hashAdd h (fun e he hcmp => ?_) fun e he hcmp => ?_) ?_
    · exact Int32.le_of_lt ((hpos e he).mp hcmp)
    · exact Int32.not_lt.mp (mt (hpos e he).mpr hcmp)
    · have hmem : ∀ a, a ∈ acls ++ hashAddInorder insertAclCmp acl acllist →
          a ∈ acl :: acls ++ acllist := by
        intro a ha
        rcases List.mem_append.mp ha with ha | ha
        · simp [ha]
        · rcases mem_hashAdd.mp ha with rfl | ha
          · simp
          · simp [ha]
      exact fun a ha a' ha' => hfits a (hmem a ha) a' (hmem a' ha')

theorem rolelistAdd_cases (base : List DynsecRolelist) (role : DynsecRole) (priority : Int32) :
    (dynsecRolelistAdd base (some role) priority).2 = base ∨
    (∀ r ∈ base, r.rolename ≠ role.rolename) ∧ (dynsecRolelistAdd base (some role) priority).2 =
      hashAddInorder rolelistCmp ⟨role.rolename, role, priority⟩ base := by
  simp only [dynsecRolelistAdd]
  split
  · exact .inl rfl
  · rename_i hnone
    refine .inr ⟨fun r hr hname => hnone ?_, rfl⟩
    exact List.any_eq_true.mpr ⟨r, hr, decide_eq_true hname⟩

/-- A role list that comes from grants, in the order of its priorities. -/
structure Graded (grants : List Grant) (base : List DynsecRolelist) : Prop where
  granted : ∀ r ∈ base, ∃ g ∈ grants, r = ⟨g.rolename, g.role, g.priority⟩
  sorted : base.Pairwise fun a b => b.priority ≤ a.priority

theorem graded_add (hc : Comparable grants) (h : Graded grants base) {g : Grant}
    (hg : g ∈ grants) : Graded grants (dynsecRolelistAdd base (some g.role) g.priority).2 := by
  rcases rolelistAdd_cases base g.role g.priority with hsame | ⟨hnew, hadd⟩
  · rw [hsame]
    exact h
  · rw [hadd]
    have hpos : ∀ e ∈ base, 0 < g.priority - e.priority ↔ e.priority < g.priority := by
      intro e he
      obtain ⟨g', hg', rfl⟩ := h.granted e he
      exact pos_sub_of_fits (hc.roles g hg g' hg' (Ne.symm (hnew _ he)))
    refine ⟨fun r hr => ?_, sorted_hashAdd h.sorted (fun e he hcmp => ?_) fun e he hcmp => ?_⟩
    · rcases mem_hashAdd.mp hr with rfl | hr
      · exact ⟨g, hg, rfl⟩
      · exact h.granted r hr
    · unfold rolelistCmp at hcmp
      simp only at hcmp
      split at hcmp
      · rename_i hzero
        exact Int32.le_of_eq (sub_eq_zero.mp hzero).symm
      · exact Int32.le_of_lt ((hpos e he).mp hcmp)
    · unfold rolelistCmp at hcmp
      simp only at hcmp
      split at hcmp
      · rename_i hzero
        exact Int32.le_of_eq (sub_eq_zero.mp hzero)
      · exact Int32.not_lt.mp (mt (hpos e he).mpr hcmp)

theorem graded_rolelist (hc : Comparable grants) : Graded grants (rolelistOf grants) := by
  have hrun : ∀ (l : List Grant) (base : List DynsecRolelist), (∀ g ∈ l, g ∈ grants) →
      Graded grants base → Graded grants
        (l.foldl (fun base g => (dynsecRolelistAdd base (some g.role) g.priority).2) base) := by
    intro l
    induction l with
    | nil => exact fun base _ h => h
    | cons g l ih =>
      intro base hl h
      obtain ⟨hg, hl⟩ := List.forall_mem_cons.mp hl
      exact ih _ hl (graded_add hc h hg)
  exact hrun grants [] (fun g hg => hg) ⟨fun r hr => (nomatch hr), List.Pairwise.nil⟩

/-- Comparable priorities are visited in their order. -/
theorem byPriority_of_comparable (hc : Comparable grants) : ByPriority (rolelistOf grants) := by
  obtain ⟨hgranted, hsorted⟩ := graded_rolelist hc
  refine ⟨hsorted, fun r hr => ?_, fun topic => aclCheck_eq topic _⟩
  obtain ⟨g, hg, rfl⟩ := hgranted r hr
  show (dynsecRolesAclLoad g.acls aclTypePubCRecv []).Pairwise _
  rw [aclLoad_eq]
  refine sorted_aclLoad List.Pairwise.nil ?_
  rw [List.append_nil]
  exact hc.entries g hg

theorem comparable_reordered (hc : Comparable grants) (h : Reordered grants grants') :
    Comparable grants' := by
  obtain ⟨shuffle, hshuffle, hperm⟩ := h
  have hfrom : ∀ g' ∈ grants', ∃ g ∈ grants, { g with acls := shuffle g } = g' := fun g' hg' =>
    List.mem_map.mp (hperm.mem_iff.mpr hg')
  refine ⟨fun g₁ h₁ g₂ h₂ hname => ?_, fun g' hg' a ha a' ha' => ?_⟩
  · obtain ⟨g₁, hg₁, rfl⟩ := hfrom g₁ h₁
    obtain ⟨g₂, hg₂, rfl⟩ := hfrom g₂ h₂
    exact hc.roles g₁ hg₁ g₂ hg₂ hname
  · obtain ⟨g, hg, rfl⟩ := hfrom g' hg'
    have hentries : g.entries.Perm (Grant.entries { g with acls := shuffle g }) :=
      (hshuffle g hg).filterMap _
    exact hc.entries g hg a (hentries.mem_iff.mpr ha) a' (hentries.mem_iff.mpr ha')

/-! ## Priorities too far apart -/

/-- Two things can be moved to the front. -/
theorem exists_perm_pair {α : Type} {a b : α} {l : List α} (ha : a ∈ l) (hb : b ∈ l)
    (hne : a ≠ b) : ∃ rest, l.Perm (a :: b :: rest) := by
  obtain ⟨s, t, rfl⟩ := List.append_of_mem ha
  have hb' : b ∈ s ++ t := by
    rw [List.mem_append, List.mem_cons] at hb
    rcases hb with hb | rfl | hb
    · exact List.mem_append_left t hb
    · exact absurd rfl hne
    · exact List.mem_append_right s hb
  obtain ⟨u, v, huv⟩ := List.append_of_mem hb'
  refine ⟨u ++ v, List.perm_middle.trans (List.Perm.cons a ?_)⟩
  rw [huv]
  exact List.perm_middle

theorem far_apart {x y : Int32} (h : ¬ CInt.Fits (x.toInt - y.toInt)) :
    (y < x ∧ ¬ CInt.Fits (x.toInt - y.toInt)) ∨ (x < y ∧ ¬ CInt.Fits (y.toInt - x.toInt)) := by
  have hx := fits_toInt x
  have hy := fits_toInt y
  rw [Int32.lt_iff_toInt_lt, Int32.lt_iff_toInt_lt]
  unfold CInt.Fits at *
  omega

theorem sublist_rolelist (grants : List Grant) (base : List DynsecRolelist) :
    List.Sublist base (grants.foldl
      (fun base g => (dynsecRolelistAdd base (some g.role) g.priority).2) base) := by
  induction grants generalizing base with
  | nil => exact List.Sublist.refl base
  | cons g grants ih =>
    refine List.Sublist.trans ?_ (ih _)
    show List.Sublist base (dynsecRolelistAdd base (some g.role) g.priority).2
    rcases rolelistAdd_cases base g.role g.priority with hsame | ⟨-, hadd⟩
    · rw [hsame]
    · rw [hadd]
      exact sublist_hashAdd

theorem sublist_aclLoad (acls acllist : List DynsecAcl) :
    List.Sublist acllist
      (acls.foldl (fun acllist acl => hashAddInorder insertAclCmp acl acllist) acllist) := by
  induction acls generalizing acllist with
  | nil => exact List.Sublist.refl acllist
  | cons acl acls ih => exact sublist_hashAdd.trans (ih _)

/-- The lower of two roles that are too far apart is visited first if it is added first. -/
theorem roles_misplaced {lo hi : Grant} {rest : List Grant} (hname : lo.rolename ≠ hi.rolename)
    (hlt : lo.priority < hi.priority)
    (hfar : ¬ CInt.Fits (hi.priority.toInt - lo.priority.toInt)) :
    ¬ ByPriority (rolelistOf (lo :: hi :: rest)) := by
  intro h
  have hcmp : ¬ 0 < rolelistCmp ⟨lo.rolename, lo.role, lo.priority⟩
      ⟨hi.rolename, hi.role, hi.priority⟩ := by
    unfold rolelistCmp
    simp only
    rw [if_neg fun hzero => Int32.ne_of_lt hlt (sub_eq_zero.mp hzero).symm]
    exact not_pos_sub hlt hfar
  have hfirst : (dynsecRolelistAdd [⟨lo.rolename, lo.role, lo.priority⟩] (some hi.role)
      hi.priority).2 = [⟨lo.rolename, lo.role, lo.priority⟩, ⟨hi.rolename, hi.role, hi.priority⟩] := by
    have hnone : ¬ [(⟨lo.rolename, lo.role, lo.priority⟩ : DynsecRolelist)].any
        (·.rolename = hi.role.rolename) = true := by
      rw [List.any_cons, List.any_nil, Bool.or_false, decide_eq_true_eq]
      exact hname
    simp only [dynsecRolelistAdd]
    rw [if_neg hnone]
    exact hashAdd_behind hcmp
  have hsub := sublist_rolelist rest
    (dynsecRolelistAdd [⟨lo.rolename, lo.role, lo.priority⟩] (some hi.role) hi.priority).2
  rw [hfirst] at hsub
  have hsorted : (rest.foldl (fun base g => (dynsecRolelistAdd base (some g.role) g.priority).2)
      (dynsecRolelistAdd [⟨lo.rolename, lo.role, lo.priority⟩] (some hi.role) hi.priority).2).Pairwise
        fun a b => b.priority ≤ a.priority := h.roles
  rw [hfirst] at hsorted
  have hpair := hsorted.sublist hsub
  exact Int32.not_le.mpr hlt ((List.pairwise_cons.mp hpair).1 _ List.mem_cons_self)

/-- The same for two entries of the role that is added first. -/
theorem entries_misplaced {g : Grant} {jlo jhi : JAcl} {jrest : List JAcl} {lo hi : DynsecAcl}
    {rest : List Grant} (hacls : g.acls = jlo :: jhi :: jrest)
    (hlo : aclOf aclTypePubCRecv jlo = some lo) (hhi : aclOf aclTypePubCRecv jhi = some hi)
    (hlt : lo.priority < hi.priority)
    (hfar : ¬ CInt.Fits (hi.priority.toInt - lo.priority.toInt)) :
    ¬ ByPriority (rolelistOf (g :: rest)) := by
  intro h
  have hrole : (⟨g.rolename, g.role, g.priority⟩ : DynsecRolelist) ∈ rolelistOf (g :: rest) :=
    (sublist_rolelist rest [⟨g.rolename, g.role, g.priority⟩]).subset List.mem_cons_self
  have hload : dynsecRolesAclLoad g.acls aclTypePubCRecv [] =
      (jrest.filterMap (aclOf aclTypePubCRecv)).foldl
        (fun acllist acl => hashAddInorder insertAclCmp acl acllist) [lo, hi] := by
    have hcmp : ¬ 0 < insertAclCmp lo hi := not_pos_sub hlt hfar
    rw [aclLoad_eq, hacls, List.filterMap_cons_some hlo, List.filterMap_cons_some hhi,
      List.foldl_cons, List.foldl_cons]
    exact congrArg (fun l => List.foldl _ l _) (hashAdd_behind hcmp)
  have hsorted : (dynsecRolesAclLoad g.acls aclTypePubCRecv []).Pairwise
      fun a b => b.priority ≤ a.priority := h.entries _ hrole
  rw [hload] at hsorted
  have hpair := hsorted.sublist (sublist_aclLoad _ [lo, hi])
  exact Int32.not_le.mpr hlt ((List.pairwise_cons.mp hpair).1 _ List.mem_cons_self)

theorem roles_fit (h : ∀ grants', Reordered grants grants' → ByPriority (rolelistOf grants'))
    {lo hi : Grant} (hlo : lo ∈ grants) (hhi : hi ∈ grants) (hname : lo.rolename ≠ hi.rolename)
    (hlt : lo.priority < hi.priority) : CInt.Fits (hi.priority.toInt - lo.priority.toInt) := by
  by_contra hfar
  obtain ⟨rest, hperm⟩ := exists_perm_pair hlo hhi fun he => hname (he ▸ rfl)
  refine @roles_misplaced lo hi rest hname hlt hfar (h _ ⟨Grant.acls, fun g _ => List.Perm.refl _, ?_⟩)
  rw [List.map_id']
  exact hperm

theorem entries_fit (h : ∀ grants', Reordered grants grants' → ByPriority (rolelistOf grants'))
    {g : Grant} (hg : g ∈ grants) {lo hi : DynsecAcl} (hlo : lo ∈ g.entries)
    (hhi : hi ∈ g.entries) (hlt : lo.priority < hi.priority) :
    CInt.Fits (hi.priority.toInt - lo.priority.toInt) := by
  by_contra hfar
  obtain ⟨jlo, hjlo, hlo⟩ := List.mem_filterMap.mp hlo
  obtain ⟨jhi, hjhi, hhi⟩ := List.mem_filterMap.mp hhi
  have hne : jlo ≠ jhi := by
    rintro rfl
    rw [hlo] at hhi
    cases hhi
    exact Int32.lt_irrefl hlt
  obtain ⟨jrest, hjperm⟩ := exists_perm_pair hjlo hjhi hne
  obtain ⟨s, t, rfl⟩ := List.append_of_mem hg
  -- only this role's entries move
  let shuffle : Grant → List JAcl := fun k => if k = g then jlo :: jhi :: jrest else k.acls
  have hshuffle : shuffle g = jlo :: jhi :: jrest := if_pos rfl
  refine @entries_misplaced { g with acls := shuffle g } jlo jhi jrest lo hi
    ((s ++ t).map fun g => { g with acls := shuffle g }) hshuffle hlo hhi hlt hfar
    (h _ ⟨shuffle, fun k _ => ?_, ?_⟩)
  · show k.acls.Perm (if k = g then jlo :: jhi :: jrest else k.acls)
    split
    · rename_i hk
      rw [hk]
      exact hjperm
    · exact List.Perm.refl _
  · exact List.perm_middle.map fun g : Grant => { g with acls := shuffle g }

end Order

/-- **Roles and entries are visited by priority, whatever the order they were added in, exactly
if** the priorities of any two roles, and of any two entries of a role, are so close that their
difference is an `int`. -/
theorem priority_order_iff (grants : List Grant) :
    (∀ grants', Reordered grants grants' → ByPriority (rolelistOf grants')) ↔
      Comparable grants := by
  constructor
  · intro h
    refine ⟨fun g hg g' hg' hname => ?_, fun g hg a ha a' ha' => ?_⟩
    · by_contra hfits
      rcases far_apart hfits with ⟨hlt, hfar⟩ | ⟨hlt, hfar⟩
      · exact hfar (roles_fit h hg' hg (Ne.symm hname) hlt)
      · exact hfar (roles_fit h hg hg' hname hlt)
    · by_contra hfits
      rcases far_apart hfits with ⟨hlt, hfar⟩ | ⟨hlt, hfar⟩
      · exact hfar (entries_fit h hg ha' ha hlt)
      · exact hfar (entries_fit h hg ha ha' hlt)
  · intro hc grants' hre
    exact byPriority_of_comparable (comparable_reordered hc hre)

/-- Two roles for a client: the first allows everything, the second denies everything. -/
def extremes : List Grant :=
  [⟨ascii "a", [⟨some (.string aclTypePubCRecv), none, some (.bool true), some (.string (ascii "#"))⟩],
      -2147483648⟩,
    ⟨ascii "b", [⟨some (.string aclTypePubCRecv), none, some (.bool false), some (.string (ascii "#"))⟩],
      2147483647⟩]

/-- **The role with the lowest priority decides**, before the one with the highest. -/
theorem lowest_priority_first :
    ¬ ByPriority (rolelistOf extremes) ∧
      aclCheckPublishCRecv (ascii "t") (rolelistOf extremes) = Rc.success := by
  refine ⟨fun h => ?_, by decide +kernel⟩
  have hroles := h.roles
  revert hroles
  decide +kernel

end AdaptiveMqtt.Security
