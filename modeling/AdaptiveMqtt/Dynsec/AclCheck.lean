import AdaptiveMqtt.Dynsec.Order
import AdaptiveMqtt.Lib.FirstMatch
import AdaptiveMqtt.Security.Subscribe

/-!
# The check of a topic

`acl.c`: whether a client may send, receive, subscribe or unsubscribe. The client's own roles
come first, then those of its groups, each in the order of the lists, and the first entry that
matches decides. A client without a username has the roles of the anonymous group. When no entry
matches, the default decides, but never for `$CONTROL`.
-/

namespace AdaptiveMqtt.Dynsec

open Lib Security Links Store Topic

/-! ## The source -/

/-- `MOSQ_ACL_READ`, `MOSQ_ACL_WRITE`, `MOSQ_ACL_SUBSCRIBE`, `MOSQ_ACL_UNSUBSCRIBE`, and any other
value. -/
inductive Access where
  | read | write | subscribe | unsubscribe | other
  deriving DecidableEq, Repr

def pluginDefer : Rc := 17

/-- The loop over the patterns of `acl_check_subscribe` and `acl_check_unsubscribe`. -/
def patternLoop (topic : Bytes) : List DynsecAcl → Option Rc
  | [] => none
  | acl :: rest =>
    if subAclCheck acl.topic topic then some acl.decision else patternLoop topic rest

def aclCheckFilter (topic : Bytes) (literal pattern : AclList) : Option Rc :=
  match literal.find topic with
  | some (_, acl) => some acl.decision
  | none => patternLoop topic pattern.entries

/-- A role of `acl_check_publish_c_recv`, `acl_check_publish_c_send`, `acl_check_subscribe` and
`acl_check_unsubscribe`. -/
def aclCheckRole (access : Access) (topic : Bytes) (acls : AclType → AclList) : Option Rc :=
  match access with
  | .read => aclLoop topic (acls .publishCRecv).entries
  | .write => aclLoop topic (acls .publishCSend).entries
  | .subscribe => aclCheckFilter topic (acls .subscribeLiteral) (acls .subscribePattern)
  | .unsubscribe => aclCheckFilter topic (acls .unsubscribeLiteral) (acls .unsubscribePattern)
  | .other => none

def aclCheckRoles (s : Store) (access : Access) (topic : Bytes) : List Ref → Option Rc
  | [] => some Rc.notFound
  | rolelist :: rest => do
    let role ← s.localRoles.get rolelist.addr
    match aclCheckRole access topic role.acls with
    | some rc => return rc
    | none => aclCheckRoles s access topic rest

def aclCheckGroups (s : Store) (access : Access) (topic : Bytes) : List Ref → Option Rc
  | [] => some Rc.notFound
  | grouplist :: rest => do
    let group ← s.localGroups.get grouplist.addr
    let rc ← aclCheckRoles s access topic group.rolelist
    if rc ≠ Rc.notFound then return rc
    aclCheckGroups s access topic rest

def aclDefault (allowed : Bool) (topic : Bytes) : Rc :=
  if allowed = false then pluginDefer
  else if topic.take 8 = ascii "$CONTROL" then pluginDefer
  else Rc.success

def aclCheck (s : Store) (access : Access) (allowed : Bool) (username : Option Bytes)
    (topic : Bytes) : Option Rc :=
  match username with
  | some username =>
    match s.clientsFind username with
    | none => some pluginDefer
    | some (_, client) => do
      let rc ← aclCheckRoles s access topic client.rolelist
      if rc ≠ Rc.notFound then return rc
      let rc ← aclCheckGroups s access topic client.grouplist
      if rc ≠ Rc.notFound then return rc
      return aclDefault allowed topic
  | none =>
    match s.dynsecAnonymousGroup with
    | some g => do
      let group ← s.localGroups.get g
      let rc ← aclCheckRoles s access topic group.rolelist
      if rc ≠ Rc.notFound then return rc
      return aclDefault allowed topic
    | none => some (aclDefault allowed topic)

def aclCheckCallback (s : Store) (access : Access) (username : Option Bytes) (topic : Bytes) :
    Option Rc :=
  match access with
  | .subscribe => aclCheck s access s.defaultAccess.subscribe username topic
  | .unsubscribe => aclCheck s access s.defaultAccess.unsubscribe username topic
  | .write => aclCheck s access s.defaultAccess.publishCSend username topic
  | .read => aclCheck s access s.defaultAccess.publishCRecv username topic
  | .other => some pluginDefer

/-! ## Entries in their places -/

def DefaultAccess.allows (access : DefaultAccess) : Access → Bool
  | .read => access.publishCRecv
  | .write => access.publishCSend
  | .subscribe => access.subscribe
  | .unsubscribe => access.unsubscribe
  | .other => false

/-- An entry of a role: through which group the client has the role, if it is not its own, and
whether the entry is for one filter only. -/
structure Standing where
  group : Option Ref
  role : Ref
  literal : Bool
  acl : DynsecAcl

/-- Own roles come before those of groups. -/
def groupPlace (group : Option Ref) : Nat ×ₗ (Int ×ₗ List Nat) :=
  group.elim (toLex (0, toLex (0, []))) fun e => toLex (1, rank e)

/-- Own roles, then groups by their priority, the roles by theirs, filters before patterns, and
the entries by their priority; names decide between equal priorities. -/
def Standing.place (st : Standing) :
    (Nat ×ₗ (Int ×ₗ List Nat)) ×ₗ (Int ×ₗ List Nat) ×ₗ Bool ×ₗ Int :=
  toLex (groupPlace st.group,
    toLex (rank st.role, toLex (!st.literal, -st.acl.priority.toInt)))

/-- The entry says something about the topic. -/
def applies (access : Access) (topic : Bytes) (literal : Bool) (acl : DynsecAcl) : Bool :=
  match access with
  | .read => acl.covers topic
  | .write => acl.covers topic
  | .subscribe => if literal then acl.topic = topic else subAclCheck acl.topic topic
  | .unsubscribe => if literal then acl.topic = topic else subAclCheck acl.topic topic
  | .other => false

/-- The entries of the two lists of a role that are about filters. If a filter has several entries
of its own, only the one that `HASH_FIND` finds is looked at. -/
def filterEntries (literal pattern : AclList) : List (Bool × DynsecAcl) :=
  literal.found.map (fun acl => (true, acl)) ++ pattern.entries.map fun acl => (false, acl)

def roleEntries (access : Access) (acls : AclType → AclList) : List (Bool × DynsecAcl) :=
  match access with
  | .read => (acls .publishCRecv).entries.map fun acl => (false, acl)
  | .write => (acls .publishCSend).entries.map fun acl => (false, acl)
  | .subscribe => filterEntries (acls .subscribeLiteral) (acls .subscribePattern)
  | .unsubscribe => filterEntries (acls .unsubscribeLiteral) (acls .unsubscribePattern)
  | .other => []

def Store.entriesOf (s : Store) (access : Access) (group : Option Ref) (base : List Ref) :
    List Standing :=
  base.flatMap fun e => ((s.localRoles.get e.addr).elim [] fun role =>
    (roleEntries access role.acls).map fun x => ⟨group, e, x.1, x.2⟩)

/-- The entries a client has, in the order in which they are looked at. -/
def Store.standings (s : Store) (access : Access) (username : Option Bytes) : List Standing :=
  match username with
  | some username =>
    match s.clientsFind username with
    | none => []
    | some (_, client) => s.entriesOf access none client.rolelist ++
        client.grouplist.flatMap fun e => (s.localGroups.get e.addr).elim [] fun group =>
          s.entriesOf access (some e) group.rolelist
  | none =>
    match s.dynsecAnonymousGroup with
    | none => []
    | some g => (s.localGroups.get g).elim [] fun group => s.entriesOf access none group.rolelist

/-- What is decided when no entry matches. -/
def Store.otherwise (s : Store) (access : Access) (username : Option Bytes) (topic : Bytes) : Rc :=
  if username.all fun username => (s.clientsFind username).isSome then
    aclDefault (s.defaultAccess.allows access) topic
  else pluginDefer

/-- The client has the entry: it is in a role of its own or of one of its groups. A client
without a username is in the anonymous group. -/
def Store.Grants (s : Store) (access : Access) (username : Option Bytes) (st : Standing) : Prop :=
  (∃ role, s.localRoles.get st.role.addr = some role ∧
    (st.literal, st.acl) ∈ roleEntries access role.acls) ∧
  match username, st.group with
  | some username, none => ∃ c client, s.clientsFind username = some (c, client) ∧
      st.role ∈ client.rolelist
  | some username, some e => ∃ c client group, s.clientsFind username = some (c, client) ∧
      e ∈ client.grouplist ∧ s.localGroups.get e.addr = some group ∧ st.role ∈ group.rolelist
  | none, none => ∃ g group, s.dynsecAnonymousGroup = some g ∧ s.localGroups.get g = some group ∧
      st.role ∈ group.rolelist
  | none, some _ => False

variable {s : Store} {access : Access} {topic : Bytes} {username : Option Bytes} {base : List Ref}
  {P : Kind} {group : Option Ref} {st : Standing}

/-! ## The check looks for the first entry that matches -/

theorem patternLoop_eq (topic : Bytes) (acls : List DynsecAcl) : patternLoop topic acls =
    (acls.find? fun acl => subAclCheck acl.topic topic).map DynsecAcl.decision := by
  induction acls with
  | nil => rfl
  | cons acl rest ih =>
    rw [patternLoop, List.find?_cons]
    cases subAclCheck acl.topic topic with
    | true => rfl
    | false => exact ih

theorem find?_tagged {p : Bool → DynsecAcl → Bool} (literal : Bool) (acls : List DynsecAcl) :
    ((acls.map fun acl => (literal, acl)).find? fun x => p x.1 x.2).map (·.2.decision) =
      (acls.find? (p literal)).map DynsecAcl.decision := by
  rw [List.find?_map, Option.map_map]
  rfl

theorem aclCheckFilter_eq {p : Bool → DynsecAcl → Bool} {literal pattern : AclList}
    (htrue : ∀ acl, p true acl = decide (acl.topic = topic))
    (hfalse : ∀ acl, p false acl = subAclCheck acl.topic topic) :
    aclCheckFilter topic literal pattern =
      ((filterEntries literal pattern).find? fun x => p x.1 x.2).map (·.2.decision) := by
  have hliteral := find?_tagged (p := p) true literal.found
  have hpattern := find?_tagged (p := p) false pattern.entries
  rw [funext htrue, ← UtHash.find_eq literal topic, Option.map_map] at hliteral
  rw [funext hfalse] at hpattern
  unfold aclCheckFilter filterEntries
  rw [List.find?_append, patternLoop_eq]
  cases hf : literal.find topic with
  | none =>
    rw [hf, Option.map_none, Option.map_eq_none_iff] at hliteral
    rw [hliteral, Option.none_or, hpattern]
  | some found =>
    rw [hf] at hliteral
    obtain ⟨x, hx, hdec⟩ := Option.map_eq_some_iff.mp hliteral
    rw [hx, Option.some_or, Option.map_some, hdec]
    rfl

theorem aclCheckRole_eq (access : Access) (topic : Bytes) (acls : AclType → AclList) :
    aclCheckRole access topic acls = ((roleEntries access acls).find? fun x =>
      applies access topic x.1 x.2).map (·.2.decision) := by
  cases access with
  | read =>
    refine (aclLoop_eq topic _).trans ?_
    exact (find?_tagged (p := applies .read topic) false _).symm
  | write =>
    refine (aclLoop_eq topic _).trans ?_
    exact (find?_tagged (p := applies .write topic) false _).symm
  | subscribe => exact aclCheckFilter_eq (fun _ => rfl) fun _ => rfl
  | unsubscribe => exact aclCheckFilter_eq (fun _ => rfl) fun _ => rfl
  | other => rfl

/-- The entry matches. -/
def Standing.hits (access : Access) (topic : Bytes) (st : Standing) : Bool :=
  applies access topic st.literal st.acl

theorem decision_ne_notFound (acl : DynsecAcl) : acl.decision ≠ Rc.notFound := by
  unfold DynsecAcl.decision
  split <;> decide

def found (o : Option Standing) : Rc := o.elim Rc.notFound (·.acl.decision)

theorem found_or (o o' : Option Standing) :
    (if found o ≠ Rc.notFound then found o else found o') = found (o.or o') := by
  cases o with
  | none => exact if_neg (not_not.mpr rfl)
  | some st => exact if_pos (decision_ne_notFound st.acl)

theorem aclCheckRoles_eq (h : ∀ e ∈ base, s.localRoles.live e.addr = true) (group : Option Ref) :
    aclCheckRoles s access topic base =
      some (found ((s.entriesOf access group base).find? (Standing.hits access topic))) := by
  induction base with
  | nil => rfl
  | cons e base ih =>
    obtain ⟨he, hrest⟩ := List.forall_mem_cons.mp h
    obtain ⟨role, hr⟩ := Table.live_iff.mp he
    have hhead : (((roleEntries access role.acls).map fun x => (⟨group, e, x.1, x.2⟩ : Standing)).find?
        (Standing.hits access topic)).map (·.acl.decision) =
        aclCheckRole access topic role.acls := by
      rw [aclCheckRole_eq, List.find?_map, Option.map_map]
      rfl
    unfold aclCheckRoles Store.entriesOf
    rw [List.flatMap_cons, List.find?_append, hr]
    simp only [Option.bind_eq_bind, Option.bind_some, Option.elim_some]
    cases hf : ((roleEntries access role.acls).map fun x => (⟨group, e, x.1, x.2⟩ : Standing)).find?
        (Standing.hits access topic) with
    | none =>
      rw [hf] at hhead
      rw [← hhead, Option.none_or]
      exact ih hrest
    | some st =>
      rw [hf] at hhead
      rw [← hhead, Option.some_or]
      rfl

theorem aclCheckGroups_eq (hgroups : ∀ e ∈ base, ∃ group, s.localGroups.get e.addr = some group ∧
    ∀ r ∈ group.rolelist, s.localRoles.live r.addr = true) :
    aclCheckGroups s access topic base = some (found ((base.flatMap fun e =>
      (s.localGroups.get e.addr).elim [] fun group =>
        s.entriesOf access (some e) group.rolelist).find? (Standing.hits access topic))) := by
  induction base with
  | nil => rfl
  | cons e base ih =>
    obtain ⟨⟨group, hg, hlive⟩, hrest⟩ := List.forall_mem_cons.mp hgroups
    unfold aclCheckGroups
    rw [List.flatMap_cons, List.find?_append, hg, ih hrest]
    simp only [Option.bind_eq_bind, Option.bind_some, Option.elim_some]
    rw [aclCheckRoles_eq hlive (some e), Option.bind_some, ← found_or]
    split <;> rfl

theorem aclCheck_found (o : Option Standing) (rc : Rc) :
    (if found o ≠ Rc.notFound then found o else rc) = o.elim rc (·.acl.decision) := by
  cases o with
  | none => exact if_neg (not_not.mpr rfl)
  | some st => exact if_pos (decision_ne_notFound st.acl)

theorem aclCheck_eq (h : s.Linked) (access : Access) (username : Option Bytes) (topic : Bytes) :
    aclCheck s access (s.defaultAccess.allows access) username topic =
      some (((s.standings access username).find? (Standing.hits access topic)).elim
        (s.otherwise access username topic) (·.acl.decision)) := by
  unfold aclCheck Store.standings Store.otherwise
  cases username with
  | none =>
    cases hanon : s.dynsecAnonymousGroup with
    | none => rfl
    | some g =>
      obtain ⟨group, hg⟩ := Table.live_iff.mp (h.anonymous g hanon)
      simp only [hg, Option.bind_eq_bind, Option.bind_some, Option.elim_some]
      rw [aclCheckRoles_eq (h.groupLive hg).1 none, Option.bind_some, ← aclCheck_found]
      split <;> rfl
  | some username =>
    cases hf : s.clientsFind username with
    | none => simp [hf]
    | some found' =>
      obtain ⟨hc, -⟩ := clientsFind_some hf
      have hgroups : ∀ e ∈ found'.2.grouplist, ∃ group, s.localGroups.get e.addr = some group ∧
          ∀ r ∈ group.rolelist, s.localRoles.live r.addr = true := by
        intro e he
        obtain ⟨group, hg⟩ := Table.live_iff.mp ((h.clientLive hc).2 e he)
        exact ⟨group, hg, (h.groupLive hg).1⟩
      simp only [Option.bind_eq_bind, Option.all_some, hf, Option.isSome_some, if_true]
      rw [aclCheckRoles_eq (h.clientLive hc).1 none, Option.bind_some, List.find?_append,
        aclCheckGroups_eq hgroups, ← aclCheck_found, ← found_or]
      split
      · rfl
      · rw [Option.bind_some]
        split <;> rfl

/-- The check of a linked store reads nothing that has been freed. -/
theorem aclCheckCallback_eq (h : s.Linked) (access : Access) (username : Option Bytes)
    (topic : Bytes) : aclCheckCallback s access username topic =
      some (((s.standings access username).find? (Standing.hits access topic)).elim
        (s.otherwise access username topic) (·.acl.decision)) := by
  cases access with
  | other =>
    have hnone : (s.standings .other username).find? (Standing.hits .other topic) = none :=
      List.find?_eq_none.mpr fun st _ => Bool.false_ne_true
    have hdefer : s.otherwise .other username topic = pluginDefer := by
      unfold Store.otherwise
      split <;> rfl
    rw [hnone, Option.elim_none, hdefer]
    rfl
  | read => exact aclCheck_eq h .read username topic
  | write => exact aclCheck_eq h .write username topic
  | subscribe => exact aclCheck_eq h .subscribe username topic
  | unsubscribe => exact aclCheck_eq h .unsubscribe username topic

/-! ## The first that matches is the best -/

theorem place_le {st st' : Standing} : st.place ≤ st'.place ↔
    groupPlace st.group < groupPlace st'.group ∨ groupPlace st.group = groupPlace st'.group ∧
      (rank st.role < rank st'.role ∨ rank st.role = rank st'.role ∧
        ((!st.literal) < (!st'.literal) ∨ (!st.literal) = (!st'.literal) ∧
          -st.acl.priority.toInt ≤ -st'.acl.priority.toInt)) := by
  unfold Standing.place
  rw [Prod.Lex.toLex_le_toLex, Prod.Lex.toLex_le_toLex, Prod.Lex.toLex_le_toLex]

theorem sorted_roleEntries {acls : AclType → AclList}
    (h : ∀ type, (acls type).entries.Pairwise fun a b => b.priority ≤ a.priority)
    (access : Access) : (roleEntries access acls).Pairwise fun x y =>
      (!x.1) < (!y.1) ∨ (!x.1) = (!y.1) ∧ -x.2.priority.toInt ≤ -y.2.priority.toInt := by
  have hmap : ∀ (literal : Bool) type (l : List DynsecAcl), l.Sublist (acls type).entries →
      (l.map fun acl => (literal, acl)).Pairwise fun x y =>
        (!x.1) < (!y.1) ∨ (!x.1) = (!y.1) ∧ -x.2.priority.toInt ≤ -y.2.priority.toInt := by
    intro literal type l hsub
    refine List.pairwise_map.mpr (((h type).sublist hsub).imp fun hle => .inr ⟨rfl, ?_⟩)
    exact Int.neg_le_neg (Int32.le_iff_toInt_le.mp hle)
  have happend : ∀ type type', (filterEntries (acls type) (acls type')).Pairwise fun x y =>
      (!x.1) < (!y.1) ∨ (!x.1) = (!y.1) ∧ -x.2.priority.toInt ≤ -y.2.priority.toInt := by
    intro type type'
    refine List.pairwise_append.mpr ⟨hmap true type _ (UtHash.found_sublist _),
      hmap false type' _ (List.Sublist.refl _), fun x hx y hy => ?_⟩
    obtain ⟨acl, -, rfl⟩ := List.mem_map.mp hx
    obtain ⟨acl', -, rfl⟩ := List.mem_map.mp hy
    exact .inl (show false < true by decide)
  cases access with
  | read => exact hmap false _ _ (List.Sublist.refl _)
  | write => exact hmap false _ _ (List.Sublist.refl _)
  | subscribe => exact happend _ _
  | unsubscribe => exact happend _ _
  | other => exact .nil

theorem rank_strict (h : P.OfRefs base) (hclose : P.Close) (hnodup : (base.map (·.name)).Nodup) :
    base.Pairwise fun e e' => rank e < rank e' := by
  have hnames : base.Pairwise fun e e' => e.name ≠ e'.name := List.pairwise_map.mp hnodup
  refine ((h.sorted hclose).and hnames).imp fun {e e'} ⟨hle, hne⟩ => lt_of_le_of_ne hle fun heq => ?_
  exact hne (chars_inj.mp (congrArg (fun x => (ofLex x).2) heq))

theorem mem_entriesOf : st ∈ s.entriesOf access group base ↔ st.group = group ∧ st.role ∈ base ∧
    ∃ role, s.localRoles.get st.role.addr = some role ∧
      (st.literal, st.acl) ∈ roleEntries access role.acls := by
  unfold Store.entriesOf
  rw [List.mem_flatMap]
  constructor
  · rintro ⟨e, he, hst⟩
    cases hr : s.localRoles.get e.addr with
    | none =>
      rw [hr] at hst
      cases hst
    | some role =>
      rw [hr] at hst
      obtain ⟨x, hx, rfl⟩ := List.mem_map.mp hst
      exact ⟨rfl, he, role, hr, hx⟩
  · rintro ⟨rfl, he, role, hr, hx⟩
    refine ⟨st.role, he, ?_⟩
    rw [hr]
    exact List.mem_map.mpr ⟨_, hx, rfl⟩

theorem sorted_entriesOf (hordered : s.Ordered P) (hclose : P.Close) (access : Access)
    (group : Option Ref) (hbase : P.OfRefs base) (hnodup : (base.map (·.name)).Nodup) :
    (s.entriesOf access group base).Pairwise fun st st' => st.place ≤ st'.place := by
  refine List.pairwise_flatMap.mpr ⟨fun e _ => ?_, ?_⟩
  · cases hr : s.localRoles.get e.addr with
    | none => exact .nil
    | some role =>
      have hsorted := sorted_roleEntries
        (fun type => ((hordered.roles hr).1 type).sorted hclose) access
      refine List.pairwise_map.mpr (hsorted.imp ?_)
      intro x y hxy
      exact place_le.mpr (.inr ⟨rfl, .inr ⟨rfl, hxy⟩⟩)
  · refine (rank_strict hbase hclose hnodup).imp fun {e e'} hlt st hst st' hst' => ?_
    have hin : ∀ {d : Ref} {st : Standing}, st ∈ ((s.localRoles.get d.addr).elim [] fun role =>
        (roleEntries access role.acls).map fun x => (⟨group, d, x.1, x.2⟩ : Standing)) →
        st.group = group ∧ st.role = d := by
      intro d st hst
      obtain ⟨hgroup, hrole, -⟩ := mem_entriesOf.mp
        (show st ∈ s.entriesOf access group [d] from List.mem_flatMap.mpr ⟨d, by simp, hst⟩)
      exact ⟨hgroup, List.mem_singleton.mp hrole⟩
    obtain ⟨hgroup, rfl⟩ := hin hst
    obtain ⟨hgroup', rfl⟩ := hin hst'
    exact place_le.mpr (.inr ⟨by rw [hgroup, hgroup'], .inl hlt⟩)

theorem groupPlace_lt {e e' : Ref} (h : rank e < rank e') :
    groupPlace (some e) < groupPlace (some e') :=
  Prod.Lex.toLex_lt_toLex.mpr (.inr ⟨rfl, h⟩)

theorem groupPlace_none_lt (e : Ref) : groupPlace none < groupPlace (some e) :=
  Prod.Lex.toLex_lt_toLex.mpr (.inl Nat.zero_lt_one)

/-- The entries a client has are looked at in their places. -/
theorem sorted_standings (h : s.Linked) (hordered : s.Ordered P) (hclose : P.Close)
    (access : Access) (username : Option Bytes) :
    (s.standings access username).Pairwise fun st st' => st.place ≤ st'.place := by
  unfold Store.standings
  cases username with
  | none =>
    cases hanon : s.dynsecAnonymousGroup with
    | none => exact .nil
    | some g =>
      simp only
      cases hg : s.localGroups.get g with
      | none => exact .nil
      | some group =>
        exact sorted_entriesOf hordered hclose access none (hordered.groups hg).1
          (h.groupRole.single (groupRoles_get hg))
  | some username =>
    simp only
    cases hf : s.clientsFind username with
    | none => exact .nil
    | some found' =>
      obtain ⟨hc, -⟩ := clientsFind_some hf
      obtain ⟨-, hroles, hgroups⟩ := hordered.clients hc
      have hin : ∀ {e : Ref} {st : Standing}, st ∈ ((s.localGroups.get e.addr).elim []
          fun group => s.entriesOf access (some e) group.rolelist) → st.group = some e := by
        intro e st hst
        cases hg : s.localGroups.get e.addr with
        | none =>
          rw [hg] at hst
          cases hst
        | some group =>
          rw [hg] at hst
          exact (mem_entriesOf.mp hst).1
      refine List.pairwise_append.mpr ⟨?_, List.pairwise_flatMap.mpr ⟨fun e _ => ?_, ?_⟩, ?_⟩
      · exact sorted_entriesOf hordered hclose access none hroles
          (h.clientRole.single (clientRoles_get hc))
      · cases hg : s.localGroups.get e.addr with
        | none => exact .nil
        | some group =>
          exact sorted_entriesOf hordered hclose access (some e) (hordered.groups hg).1
            (h.groupRole.single (groupRoles_get hg))
      · refine (rank_strict hgroups hclose (h.clientGroup.single (clientGroups_get hc))).imp
          fun {e e'} hlt st hst st' hst' => ?_
        refine place_le.mpr (.inl ?_)
        rw [hin hst, hin hst']
        exact groupPlace_lt hlt
      · intro st hst st' hst'
        obtain ⟨e, -, hst'⟩ := List.mem_flatMap.mp hst'
        refine place_le.mpr (.inl ?_)
        rw [(mem_entriesOf.mp hst).1, hin hst']
        exact groupPlace_none_lt e

theorem mem_standings : st ∈ s.standings access username ↔ s.Grants access username st := by
  unfold Store.standings Store.Grants
  cases username with
  | none =>
    cases hanon : s.dynsecAnonymousGroup with
    | none =>
      cases st.group <;> simp
    | some g =>
      simp only
      cases hg : s.localGroups.get g with
      | none => cases st.group <;> simp [hg]
      | some group =>
        rw [Option.elim_some, mem_entriesOf]
        cases hgroup : st.group with
        | none => simp [hg, and_comm]
        | some e => simp
  | some username =>
    simp only
    cases hf : s.clientsFind username with
    | none => cases st.group <;> simp [hf]
    | some found' =>
      obtain ⟨c, client⟩ := found'
      have hgroups : st ∈ (client.grouplist.flatMap fun e => (s.localGroups.get e.addr).elim []
          fun group => s.entriesOf access (some e) group.rolelist) ↔
          ∃ e ∈ client.grouplist, ∃ group, s.localGroups.get e.addr = some group ∧
            st ∈ s.entriesOf access (some e) group.rolelist := by
        rw [List.mem_flatMap]
        refine exists_congr fun e => and_congr_right fun _ => ?_
        cases s.localGroups.get e.addr with
        | none => simp
        | some group => simp
      rw [List.mem_append, hgroups]
      simp only [mem_entriesOf]
      cases hgroup : st.group with
      | none => simp [hf, and_comm]
      | some e =>
        simp only [reduceCtorEq, false_and, false_or, Option.some.injEq]
        constructor
        · rintro ⟨e', he', group, hg, rfl, hrole, hentry⟩
          exact ⟨hentry, c, client, group, hf, he', hg, hrole⟩
        · rintro ⟨hentry, c', client', group, hf', he, hg, hrole⟩
          rw [hf] at hf'
          cases hf'
          exact ⟨e, he, group, hg, rfl, hrole, hentry⟩

/-- What decides: a matching entry before which no other stands, or the default. -/
theorem aclCheck_best (h : s.Linked) (hordered : s.Ordered P) (hclose : P.Close)
    (access : Access) (username : Option Bytes) (topic : Bytes) :
    ∃ rc, aclCheckCallback s access username topic = some rc ∧
      ((∃ st, s.Grants access username st ∧ st.hits access topic = true ∧ rc = st.acl.decision ∧
        ∀ st', s.Grants access username st' → st'.hits access topic = true →
          st.place ≤ st'.place) ∨
      (∀ st, s.Grants access username st → ¬ st.hits access topic = true) ∧
        rc = s.otherwise access username topic) := by
  refine ⟨_, aclCheckCallback_eq h access username topic, ?_⟩
  cases hf : (s.standings access username).find? (Standing.hits access topic) with
  | none =>
    exact .inr ⟨fun st hst => List.find?_eq_none.mp hf st (mem_standings.mpr hst), rfl⟩
  | some st =>
    refine .inl ⟨st, mem_standings.mp (List.mem_of_find?_eq_some hf), List.find?_some hf, rfl,
      fun st' hst' hhits => ?_⟩
    exact FirstMatch.find?_least (sorted_standings h hordered hclose access username) hf st'
      (mem_standings.mpr hst') hhits

end AdaptiveMqtt.Dynsec
