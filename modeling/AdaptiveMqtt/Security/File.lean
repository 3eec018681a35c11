import AdaptiveMqtt.Lib.FirstMatch
import AdaptiveMqtt.Topic.Model

/-!
# The ACL file

`src/security_default.c`: `add__acl` and `add__acl_pattern`, which `aclfile__parse` calls for
every entry of an ACL file, and `mosquitto_acl_check_default`, which looks an access up. The
first entry that matches decides, and an entry that denies goes to the front of its list, so
the order of the file does not matter.

Every listener has options of its own, next to those of the broker. Allocation succeeds.
-/

namespace AdaptiveMqtt.Security

open Topic Lib

/-! ## Entries -/

/-- The C `int` of an access: a set of bits. -/
abbrev AccessBits := BitVec 32

def aclNone : AccessBits := 0x00
def aclRead : AccessBits := 0x01
def aclWrite : AccessBits := 0x02
def aclSubscribe : AccessBits := 0x04
def aclUnsubscribe : AccessBits := 0x08

def pluginDefer : Rc := 17

abbrev percent : UInt8 := 37

structure Acl where
  topic : Bytes
  access : AccessBits
  ucount : Nat
  ccount : Nat
  deriving DecidableEq, Repr

structure AclUser where
  username : Option Bytes
  acl : List Acl
  deriving DecidableEq, Repr

/-- `struct mosquitto__security_options`, as far as ACLs need it. -/
structure SecurityOptions where
  aclFile : Option Bytes
  aclList : List AclUser
  aclPatterns : List Acl
  deriving DecidableEq, Repr

/-- The options of the broker (`none`) and of its listeners. -/
structure AclConfig where
  perListenerSettings : Bool
  securityOptions : Option Nat → SecurityOptions

/-- What the check reads of a `struct mosquitto`. -/
structure AclClient where
  bridge : Bool
  id : Option Bytes
  username : Option Bytes
  listener : Option Nat
  deriving DecidableEq, Repr

/-! ## Adding entries -/

/-- Both functions put an entry that denies at the front, and any other at the back. -/
def Acl.addTo (acl : Acl) : List Acl → List Acl
  | [] => [acl]
  | l => if acl.access = aclNone then acl :: l else l ++ [acl]

/-- `add__acl` on the list of users: a new user goes to the end. -/
def addToUser (user : Option Bytes) (acl : Acl) : List AclUser → List AclUser
  | [] => [⟨user, acl.addTo []⟩]
  | u :: us =>
    if u.username = user then { u with acl := acl.addTo u.acl } :: us
    else u :: addToUser user acl us

def addAcl (user : Option Bytes) (topic : Bytes) (access : AccessBits) (opts : SecurityOptions) :
    SecurityOptions :=
  { opts with aclList := addToUser user ⟨topic, access, 0, 0⟩ opts.aclList }

/-- The `strstr` loop that counts `%c` or `%u`. -/
def countPattern (c : UInt8) : Bytes → Nat
  | [] | [_] => 0
  | a :: b :: s => if a = percent ∧ b = c then countPattern c s + 1 else countPattern c (b :: s)

def patternAcl (topic : Bytes) (access : AccessBits) : Acl :=
  { topic, access, ucount := countPattern 117 topic, ccount := countPattern 99 topic }

def addAclPattern (topic : Bytes) (access : AccessBits) (opts : SecurityOptions) :
    SecurityOptions :=
  { opts with aclPatterns := (patternAcl topic access).addTo opts.aclPatterns }

/-! ## Checking -/

/-- `acl__find_acls`: what `context->acl_list` points to. -/
def aclFindAcls (opts : SecurityOptions) (client : AclClient) : Option AclUser :=
  opts.aclList.find? (·.username = client.username)

/-- What an entry says about an access to a topic its filter is compared with. -/
def aclDecides (filter topic : Bytes) (access : AccessBits) (acl : Acl) : Option Rc :=
  if (mosquittoTopicMatchesSub filter topic).2 = true then
    if acl.access = aclNone then some Rc.aclDenied
    else if access &&& acl.access ≠ 0 then some Rc.success
    else none
  else none

/-- The loop body for the entries of a user. -/
def userDecides (topic : Bytes) (access : AccessBits) (acl : Acl) : Option Rc :=
  if topic.head? = some dollar ∧ acl.topic.head? ≠ some dollar then none
  else aclDecides acl.topic topic access acl

/-- The loop that writes `local_acl`: `%c` and `%u` become the client id and the user name. -/
def localAcl (id : Bytes) (username : Option Bytes) : Bytes → Bytes
  | [] => []
  | [a] => [a]
  | a :: b :: s =>
    if a = percent ∧ b = 99 then id ++ localAcl id username s
    else
      match username with
      | some name =>
        if a = percent ∧ b = 117 then name ++ localAcl id username s
        else a :: localAcl id username (b :: s)
      | none => a :: localAcl id username (b :: s)

def patternDecides (id : Bytes) (username : Option Bytes) (topic : Bytes) (access : AccessBits)
    (acl : Acl) : Option Rc :=
  if acl.ucount ≠ 0 ∧ username = none then none
  else aclDecides (localAcl id username acl.topic) topic access acl

def patternCheck (patterns : List Acl) (client : AclClient) (topic : Bytes) (access : AccessBits) :
    Rc :=
  if patterns ≠ [] ∧ client.username.any (·.any isWildcard) = true then Rc.aclDenied
  else if patterns ≠ [] ∧ client.id.any (·.any isWildcard) = true then Rc.aclDenied
  else
    match client.id with
    | none => Rc.aclDenied
    | some id =>
      (patterns.findSome? (patternDecides id client.username topic access)).getD Rc.aclDenied

/-- `mosquitto_acl_check_default` with the options that apply to the client. -/
def aclCheck (opts : SecurityOptions) (client : AclClient) (topic : Bytes) (access : AccessBits) :
    Rc :=
  if opts.aclFile = none ∧ opts.aclList = [] ∧ opts.aclPatterns = [] then pluginDefer
  else if aclFindAcls opts client = none ∧ opts.aclPatterns = [] then Rc.aclDenied
  else
    match ((aclFindAcls opts client).elim [] (·.acl)).findSome? (userDecides topic access) with
    | some rc => rc
    | none => patternCheck opts.aclPatterns client topic access

def mosquittoAclCheckDefault (config : AclConfig) (client : AclClient) (topic : Bytes)
    (access : AccessBits) : Rc :=
  if client.bridge = true then Rc.success
  else if access = aclSubscribe ∨ access = aclUnsubscribe then Rc.success
  else if config.perListenerSettings = true then
    match client.listener with
    | none => Rc.aclDenied
    | some i => aclCheck (config.securityOptions (some i)) client topic access
  else aclCheck (config.securityOptions none) client topic access

section CountPattern

variable {c a b : UInt8} {s : Bytes}

theorem countPattern_hit (h : a = percent ∧ b = c) :
    countPattern c (a :: b :: s) = countPattern c s + 1 := by
  rw [countPattern, if_pos h]

theorem countPattern_miss (h : ¬ (a = percent ∧ b = c)) :
    countPattern c (a :: b :: s) = countPattern c (b :: s) := by
  rw [countPattern, if_neg h]

theorem countPattern_skip (h : a ≠ percent) : countPattern c (a :: s) = countPattern c s := by
  cases s with
  | nil => rfl
  | cons b s => exact countPattern_miss fun h' => h h'.1

end CountPattern

/-- The buffer that `mosquitto_acl_check_default` allocates has the right size: the counts are
those of the loop that fills it. -/
theorem length_localAcl (id : Bytes) (username : Option Bytes) (topic : Bytes) :
    ((localAcl id username topic).length : Int) =
      topic.length + countPattern 99 topic * ((id.length : Int) - 2) +
        username.elim 0 fun name => countPattern 117 topic * ((name.length : Int) - 2) := by
  fun_induction localAcl id username topic with
  | case1 => cases username <;> simp [countPattern]
  | case2 a => cases username <;> simp [countPattern]
  | case3 a b s h ih =>
    obtain ⟨rfl, rfl⟩ := h
    have hu : countPattern 117 (percent :: 99 :: s) = countPattern 117 s := by
      rw [countPattern_miss (by decide), countPattern_skip (by decide)]
    rw [countPattern_hit ⟨rfl, rfl⟩, hu, List.length_append, List.length_cons, List.length_cons]
    push_cast
    rw [ih]
    ring
  | case4 a b s h name hname h' ih =>
    subst hname
    obtain ⟨rfl, rfl⟩ := h'
    have hc : countPattern 99 (percent :: 117 :: s) = countPattern 99 s := by
      rw [countPattern_miss (by decide), countPattern_skip (by decide)]
    simp only [Option.elim_some] at ih ⊢
    rw [countPattern_hit ⟨rfl, rfl⟩, hc, List.length_append, List.length_cons, List.length_cons]
    push_cast
    rw [ih]
    ring
  | case5 a b s h name hname h' ih =>
    subst hname
    simp only [Option.elim_some] at ih ⊢
    rw [countPattern_miss h, countPattern_miss h', List.length_cons, List.length_cons]
    push_cast
    rw [ih, List.length_cons]
    push_cast
    ring
  | case6 a b s h hname ih =>
    subst hname
    simp only [Option.elim_none] at ih ⊢
    rw [countPattern_miss h, List.length_cons, List.length_cons]
    push_cast
    rw [ih, List.length_cons]
    push_cast
    ring

/-! ## The lists after a number of calls -/

/-- A call of `add__acl` or of `add__acl_pattern` for the options of the broker or of a
listener. -/
inductive AclCall where
  | addAcl (target : Option Nat) (user : Option Bytes) (topic : Bytes) (access : AccessBits)
  | addAclPattern (target : Option Nat) (topic : Bytes) (access : AccessBits)
  deriving DecidableEq, Repr

namespace AclConfig

/-- Change the options of the broker or of a listener. -/
def onOptions (target : Option Nat) (f : SecurityOptions → SecurityOptions) (config : AclConfig) :
    AclConfig :=
  { config with
    securityOptions := Function.update config.securityOptions target
      (f (config.securityOptions target)) }

/-- The options after a call. -/
def exec (config : AclConfig) : AclCall → AclConfig
  | .addAcl target user topic access => config.onOptions target (addAcl user topic access)
  | .addAclPattern target topic access => config.onOptions target (addAclPattern topic access)

/-- The options before the first call, as `acl__cleanup` leaves them. -/
def clean (perListenerSettings : Bool) (aclFile : Option Nat → Option Bytes) : AclConfig :=
  ⟨perListenerSettings, fun target => ⟨aclFile target, [], []⟩⟩

/-- The options after a sequence of calls. -/
def load (perListenerSettings : Bool) (aclFile : Option Nat → Option Bytes)
    (calls : List AclCall) : AclConfig :=
  calls.foldl exec (clean perListenerSettings aclFile)

end AclConfig

def AclCall.forUser (target : Option Nat) (user : Option Bytes) : AclCall → Option Acl
  | .addAcl t u topic access => if t = target ∧ u = user then some ⟨topic, access, 0, 0⟩ else none
  | .addAclPattern _ _ _ => none

def AclCall.forPatterns (target : Option Nat) : AclCall → Option Acl
  | .addAcl _ _ _ _ => none
  | .addAclPattern t topic access => if t = target then some (patternAcl topic access) else none

def Acl.denies (acl : Acl) : Bool := acl.access = aclNone

theorem Acl.addTo_eq (acl : Acl) (l : List Acl) : acl.addTo l = FirstMatch.place Acl.denies acl l := by
  unfold FirstMatch.place Acl.denies
  cases l with
  | nil => simp [Acl.addTo]
  | cons a l => simp [Acl.addTo]

def listOf (acls : List Acl) : List Acl := acls.foldl (fun l acl => acl.addTo l) []

theorem listOf_eq (acls : List Acl) :
    listOf acls = acls.foldl (fun l acl => FirstMatch.place Acl.denies acl l) [] := by
  simp only [listOf, Acl.addTo_eq]

theorem listOf_append (acls : List Acl) (acl : Acl) :
    listOf (acls ++ [acl]) = acl.addTo (listOf acls) := by
  simp only [listOf, List.foldl_append, List.foldl_cons, List.foldl_nil]

theorem perm_listOf {acls acls' : List Acl} (h : acls.Perm acls') :
    (listOf acls).Perm (listOf acls') := by
  rw [listOf_eq, listOf_eq]
  have hl := @FirstMatch.perm_foldl_place _ Acl.denies acls []
  have hl' := @FirstMatch.perm_foldl_place _ Acl.denies acls' []
  rw [List.append_nil] at hl hl'
  exact (hl.trans h).trans hl'.symm

theorem grouped_listOf (acls : List Acl) : FirstMatch.Grouped Acl.denies (listOf acls) := by
  rw [listOf_eq]
  exact FirstMatch.grouped_foldl_place acls List.Pairwise.nil

theorem find?_addToUser (user u : Option Bytes) (acl : Acl) (us : List AclUser) :
    (addToUser user acl us).find? (·.username = u) =
      if user = u then
        some ⟨u, acl.addTo ((us.find? (·.username = u)).elim [] (·.acl))⟩
      else us.find? (·.username = u) := by
  induction us with
  | nil =>
    by_cases h : user = u <;> simp [addToUser, h]
  | cons v us ih =>
    rw [addToUser]
    by_cases hv : v.username = user
    · by_cases h : user = u
      · simp [hv, h]
      · simp [hv, h]
    · rw [if_neg hv]
      by_cases hvu : v.username = u
      · have hne : user ≠ u := fun h => hv (hvu.trans h.symm)
        simp [hvu, hne]
      · simp only [List.find?_cons, hvu, decide_false, ih]

namespace AclConfig

variable {perListenerSettings : Bool} {aclFile : Option Nat → Option Bytes}

theorem load_append (calls : List AclCall) (call : AclCall) :
    load perListenerSettings aclFile (calls ++ [call]) =
      (load perListenerSettings aclFile calls).exec call := by
  simp only [load, List.foldl_append, List.foldl_cons, List.foldl_nil]

theorem load_static (calls : List AclCall) :
    (load perListenerSettings aclFile calls).perListenerSettings = perListenerSettings ∧
      ∀ target, ((load perListenerSettings aclFile calls).securityOptions target).aclFile =
        aclFile target := by
  induction calls using List.reverseRecOn with
  | nil => exact ⟨rfl, fun _ => rfl⟩
  | append_singleton calls call ih =>
    rw [load_append]
    cases call with
    | addAcl t user topic access =>
      refine ⟨ih.1, fun target => ?_⟩
      by_cases h : target = t
      · subst h
        simp only [exec, onOptions, Function.update_self, addAcl]
        exact ih.2 target
      · simp only [exec, onOptions, Function.update_of_ne h]
        exact ih.2 target
    | addAclPattern t topic access =>
      refine ⟨ih.1, fun target => ?_⟩
      by_cases h : target = t
      · subst h
        simp only [exec, onOptions, Function.update_self, addAclPattern]
        exact ih.2 target
      · simp only [exec, onOptions, Function.update_of_ne h]
        exact ih.2 target

theorem load_patterns (calls : List AclCall) (target : Option Nat) :
    ((load perListenerSettings aclFile calls).securityOptions target).aclPatterns =
      listOf (calls.filterMap (AclCall.forPatterns target)) := by
  induction calls using List.reverseRecOn with
  | nil => rfl
  | append_singleton calls call ih =>
    rw [load_append, List.filterMap_append]
    cases call with
    | addAcl t user topic access =>
      rw [List.filterMap_cons_none (by rfl), List.filterMap_nil, List.append_nil, ← ih]
      by_cases h : target = t
      · subst h
        simp only [exec, onOptions, Function.update_self, addAcl]
      · simp only [exec, onOptions, Function.update_of_ne h]
    | addAclPattern t topic access =>
      by_cases h : target = t
      · subst h
        have hcall : AclCall.forPatterns target (.addAclPattern target topic access) =
            some (patternAcl topic access) := if_pos rfl
        rw [List.filterMap_cons_some hcall, List.filterMap_nil, listOf_append, ← ih]
        simp only [exec, onOptions, Function.update_self, addAclPattern]
      · have hcall : AclCall.forPatterns target (.addAclPattern t topic access) = none :=
          if_neg fun ht => h ht.symm
        rw [List.filterMap_cons_none hcall, List.filterMap_nil, List.append_nil, ← ih]
        simp only [exec, onOptions, Function.update_of_ne h]

/-- The entries of a user are those of the calls for it. -/
theorem load_user (calls : List AclCall) (target : Option Nat) (u : Option Bytes) :
    ((load perListenerSettings aclFile calls).securityOptions target).aclList.find?
        (·.username = u) =
      let acls := calls.filterMap (AclCall.forUser target u)
      if acls = [] then none else some ⟨u, listOf acls⟩ := by
  induction calls using List.reverseRecOn with
  | nil => rfl
  | append_singleton calls call ih =>
    simp only at ih ⊢
    rw [load_append, List.filterMap_append]
    cases call with
    | addAclPattern t topic access =>
      rw [List.filterMap_cons_none (by rfl), List.filterMap_nil, List.append_nil, ← ih]
      by_cases h : target = t
      · subst h
        simp only [exec, onOptions, Function.update_self, addAclPattern]
      · simp only [exec, onOptions, Function.update_of_ne h]
    | addAcl t user topic access =>
      by_cases h : t = target ∧ user = u
      · obtain ⟨rfl, rfl⟩ := h
        have hcall : AclCall.forUser t user (.addAcl t user topic access) =
            some ⟨topic, access, 0, 0⟩ := if_pos ⟨rfl, rfl⟩
        rw [List.filterMap_cons_some hcall, List.filterMap_nil, listOf_append, if_neg (by simp)]
        simp only [exec, onOptions, Function.update_self, addAcl]
        rw [find?_addToUser, if_pos rfl, ih]
        split
        · rename_i hnil
          rw [hnil]
          rfl
        · rfl
      · have hcall : AclCall.forUser target u (.addAcl t user topic access) = none := if_neg h
        rw [List.filterMap_cons_none hcall, List.filterMap_nil, List.append_nil, ← ih]
        by_cases ht : target = t
        · subst ht
          simp only [exec, onOptions, Function.update_self, addAcl]
          rw [find?_addToUser, if_neg fun hu => h ⟨rfl, hu⟩]
        · simp only [exec, onOptions, Function.update_of_ne ht]

end AclConfig

/-! ## The order of the entries -/

/-- Lists that decide the same whatever they are asked. -/
structure Alike (l l' : List Acl) : Prop where
  perm : l.Perm l'
  left : FirstMatch.Grouped Acl.denies l
  right : FirstMatch.Grouped Acl.denies l'

theorem alike_listOf {acls acls' : List Acl} (h : acls.Perm acls') :
    Alike (listOf acls) (listOf acls') :=
  ⟨perm_listOf h, grouped_listOf acls, grouped_listOf acls'⟩

theorem agree_aclDecides (filter : Acl → Bytes) (topic : Bytes) (access : AccessBits) :
    FirstMatch.Agree Acl.denies (fun acl => aclDecides (filter acl) topic access acl)
      Rc.aclDenied Rc.success := by
  constructor
  · intro acl rc hden h
    have hnone : acl.access = aclNone := by simpa [Acl.denies] using hden
    simp only [aclDecides, if_pos hnone] at h
    split at h
    · exact (Option.some.inj h).symm
    · cases h
  · intro acl rc hden h
    have hsome : acl.access ≠ aclNone := by simpa [Acl.denies] using hden
    simp only [aclDecides, if_neg hsome] at h
    split at h
    · split at h
      · exact (Option.some.inj h).symm
      · cases h
    · cases h

/-- An entry that is passed over under a condition on it alone changes nothing in that. -/
theorem agree_skip {f : Acl → Option Rc} {x y : Rc} (skip : Acl → Prop) [DecidablePred skip]
    (h : FirstMatch.Agree Acl.denies f x y) :
    FirstMatch.Agree Acl.denies (fun acl => if skip acl then none else f acl) x y := by
  constructor
  · intro acl rc hden hrc
    split at hrc
    · cases hrc
    · exact h.onFirst acl rc hden hrc
  · intro acl rc hden hrc
    split at hrc
    · cases hrc
    · exact h.onOther acl rc hden hrc

/-- Options that differ in the order of the entries only. -/
structure SameRules (opts opts' : SecurityOptions) : Prop where
  aclFile : opts.aclFile = opts'.aclFile
  patterns : Alike opts.aclPatterns opts'.aclPatterns
  users : ∀ u, (opts.aclList.find? (·.username = u) = none ∧
      opts'.aclList.find? (·.username = u) = none) ∨
    ∃ l l', opts.aclList.find? (·.username = u) = some ⟨u, l⟩ ∧
      opts'.aclList.find? (·.username = u) = some ⟨u, l'⟩ ∧ Alike l l'

theorem aclList_eq_nil {l : List AclUser} :
    l = [] ↔ ∀ u, l.find? (·.username = u) = none := by
  refine ⟨fun h => by simp [h], fun h => ?_⟩
  cases l with
  | nil => rfl
  | cons v l => exact absurd (h v.username) (by simp)

theorem patternCheck_alike {l l' : List Acl} (h : Alike l l') (client : AclClient) (topic : Bytes)
    (access : AccessBits) : patternCheck l client topic access = patternCheck l' client topic access := by
  have hnil : l = [] ↔ l' = [] := by
    rw [← List.length_eq_zero_iff, ← List.length_eq_zero_iff, h.perm.length_eq]
  unfold patternCheck
  simp only [ne_eq, hnil]
  cases client.id with
  | none => rfl
  | some id =>
    have hdec : l.findSome? (patternDecides id client.username topic access) =
        l'.findSome? (patternDecides id client.username topic access) :=
      FirstMatch.findSome?_perm h.perm h.left h.right
        (agree_skip (fun acl => acl.ucount ≠ 0 ∧ client.username = none)
          (agree_aclDecides (fun acl => localAcl id client.username acl.topic) topic access))
    simp only [hdec]

theorem aclCheck_sameRules {opts opts' : SecurityOptions} (h : SameRules opts opts')
    (client : AclClient) (topic : Bytes) (access : AccessBits) :
    aclCheck opts client topic access = aclCheck opts' client topic access := by
  have hpat : opts.aclPatterns = [] ↔ opts'.aclPatterns = [] := by
    rw [← List.length_eq_zero_iff, ← List.length_eq_zero_iff, h.patterns.perm.length_eq]
  have husers : opts.aclList = [] ↔ opts'.aclList = [] := by
    rw [aclList_eq_nil, aclList_eq_nil]
    refine forall_congr' fun u => ?_
    rcases h.users u with ⟨hu, hu'⟩ | ⟨l, l', hu, hu', -⟩
    · rw [hu, hu']
    · rw [hu, hu']
      simp
  unfold aclCheck aclFindAcls
  simp only [h.aclFile, hpat, husers, patternCheck_alike h.patterns client topic access]
  rcases h.users client.username with ⟨hu, hu'⟩ | ⟨l, l', hu, hu', hl⟩
  · rw [hu, hu']
  · have hdec : l.findSome? (userDecides topic access) = l'.findSome? (userDecides topic access) :=
      FirstMatch.findSome?_perm hl.perm hl.left hl.right
        (agree_skip (fun acl => topic.head? = some dollar ∧ acl.topic.head? ≠ some dollar)
          (agree_aclDecides Acl.topic topic access))
    rw [hu, hu']
    simp only [Option.elim_some, hdec, reduceCtorEq, false_and]

theorem sameRules_load (perListenerSettings : Bool) (aclFile : Option Nat → Option Bytes)
    {calls calls' : List AclCall} (h : calls.Perm calls') (target : Option Nat) :
    SameRules ((AclConfig.load perListenerSettings aclFile calls).securityOptions target)
      ((AclConfig.load perListenerSettings aclFile calls').securityOptions target) := by
  refine ⟨?_, ?_, fun u => ?_⟩
  · rw [(AclConfig.load_static calls).2, (AclConfig.load_static calls').2]
  · rw [AclConfig.load_patterns, AclConfig.load_patterns]
    exact alike_listOf (h.filterMap _)
  · have hacls := h.filterMap (AclCall.forUser target u)
    rw [AclConfig.load_user, AclConfig.load_user]
    simp only
    by_cases hnil : calls.filterMap (AclCall.forUser target u) = []
    · have hnil' : calls'.filterMap (AclCall.forUser target u) = [] := (hnil ▸ hacls).nil_eq.symm
      rw [if_pos hnil, if_pos hnil']
      exact .inl ⟨rfl, rfl⟩
    · have hnil' : calls'.filterMap (AclCall.forUser target u) ≠ [] := fun h' =>
        hnil ((h' ▸ hacls.symm).nil_eq.symm)
      rw [if_neg hnil, if_neg hnil']
      exact .inr ⟨_, _, rfl, rfl, alike_listOf hacls⟩

/-- **The order of the entries does not matter**: after the same calls in another order every
client gets the same answer for every topic and access. -/
theorem acl_order_irrelevant (perListenerSettings : Bool) (aclFile : Option Nat → Option Bytes)
    {calls calls' : List AclCall} (h : calls.Perm calls') (client : AclClient) (topic : Bytes)
    (access : AccessBits) :
    mosquittoAclCheckDefault (AclConfig.load perListenerSettings aclFile calls) client topic access =
      mosquittoAclCheckDefault (AclConfig.load perListenerSettings aclFile calls') client topic
        access := by
  unfold mosquittoAclCheckDefault
  rw [(AclConfig.load_static calls).1, (AclConfig.load_static calls').1]
  simp only [fun target => aclCheck_sameRules (sameRules_load perListenerSettings aclFile h target)
    client topic access]

/-- A denial after a grant, and before it. -/
theorem acl_order_irrelevant_deny :
    let grant := AclCall.addAcl none none (ascii "a/#") (aclRead ||| aclWrite)
    let deny := AclCall.addAcl none none (ascii "a/b") aclNone
    let client : AclClient := ⟨false, some (ascii "c"), none, none⟩
    mosquittoAclCheckDefault (AclConfig.load false (fun _ => none) [grant, deny]) client
        (ascii "a/b") aclRead = Rc.aclDenied ∧
      mosquittoAclCheckDefault (AclConfig.load false (fun _ => none) [deny, grant]) client
        (ascii "a/b") aclRead = Rc.aclDenied := by
  intro grant deny client
  have hdeny : mosquittoAclCheckDefault (AclConfig.load false (fun _ => none) [grant, deny]) client
      (ascii "a/b") aclRead = Rc.aclDenied := by decide
  exact ⟨hdeny, (acl_order_irrelevant false (fun _ => none) (List.Perm.swap grant deny []) client
    (ascii "a/b") aclRead).trans hdeny⟩

end AdaptiveMqtt.Security
