import AdaptiveMqtt.Db.Rest

/-!
# Writes for outgoing messages

Sending a message and inserting it for a subscriber are sequences of single writes
(`Outward`), of which none needs a condition: lists of `msgs_out` change, a PUBREL is queued,
a reference is taken or dropped, a client id is added to `dest_ids`, something is written down,
or a field elsewhere changes. What all writes leave alone, the functions leave alone.

A message is placed at one point of `db__message_insert` only (`Inserts`).
-/

namespace AdaptiveMqtt.Db

open Lib

/-- Fields of the client or the database that these results are not about. -/
structure Elsewhere (m m' : Machine) : Prop where
  msgStore : m'.db.msgStore = m.db.msgStore
  nowS : m'.db.nowS = m.db.nowS
  config : m'.db.config = m.db.config
  id : m'.ctx.id = m.ctx.id
  protocol : m'.ctx.protocol = m.ctx.protocol
  msgsIn : m'.ctx.msgsIn = m.ctx.msgsIn
  msgsOut : m'.ctx.msgsOut = m.ctx.msgsOut
  journal : m'.ctx.journal = m.ctx.journal
  replies : m'.ctx.replies = m.ctx.replies

/-- One write. -/
inductive Outward (net : Net) : Machine → Machine → Prop where
  | elsewhere {m m' : Machine} (h : Elsewhere m m') : Outward net m m'
  | lists (f : MsgData → MsgData) (m : Machine) : Outward net m (m.onMsgs .mdOut f)
  | pubrel (mid : UInt16) (m : Machine) : Outward net m (sendPubrel net mid m).2
  | refDec (s : StoreId) (m : Machine) : Outward net m { m with db := m.db.msgStoreRefDec s }
  | note (s : StoreId) (id : Bytes) (m : Machine) : Outward net m { m with db := m.db.addDestId s id }
  | removed {e : Event} (item : ClientMsg) (h : e.removes = some item) (m : Machine) :
    Outward net m { m with ctx := m.ctx.log e }

/-- Any number of writes. -/
abbrev Outwards (net : Net) : Machine → Machine → Prop := Relation.ReflTransGen (Outward net)

section Outwards

variable {net : Net} {m m' : Machine}

theorem outwards_elsewhere (h : Elsewhere m m') : Outwards net m m' := .single (.elsewhere h)

theorem outwards_lists (f : MsgData → MsgData) (m : Machine) : Outwards net m (m.onMsgs .mdOut f) :=
  .single (.lists f m)

theorem outwards_updateInflight (addr : Nat) (f : ClientMsg → ClientMsg) (m : Machine) :
    Outwards net m (m.updateInflight addr f) :=
  outwards_lists _ m

theorem outwards_sent (m : Machine) (r : Rc × Out) : Outwards net m (m.sent r).2 :=
  outwards_elsewhere ⟨rfl, rfl, rfl, rfl, rfl, rfl, rfl, rfl, rfl⟩

theorem outwards_removeOut {msg item : ClientMsg} {e : Event} (he : e.removes = some item)
    (m : Machine) : Outwards net m (removeOut msg e m) := by
  have hdrop : Outwards net (m.messageRemove .mdOut msg) { m.messageRemove .mdOut msg with
      ctx := (m.messageRemove .mdOut msg).ctx.drop msg.store.addr } :=
    outwards_elsewhere ⟨rfl, rfl, rfl, rfl, rfl, rfl, rfl, rfl, rfl⟩
  have hremove : Outwards net m (m.messageRemove .mdOut msg) :=
    (Relation.ReflTransGen.single (.refDec msg.store.addr m)).tail (.lists (·.remove msg) _)
  exact (hremove.trans hdrop).tail (.removed item he _)

theorem outwards_sendMapped (p : Publish) (m : Machine) : Outwards net m (sendMapped net p m).2 := by
  have hstamp : Outwards net m (stampSendTime p.topic m) := by
    unfold stampSendTime
    split
    · exact outwards_elsewhere ⟨rfl, rfl, rfl, rfl, rfl, rfl, rfl, rfl, rfl⟩
    · exact .refl
  unfold sendMapped
  split
  · exact .refl
  · exact outwards_sent m _
  · exact hstamp.trans (outwards_sent _ _)

theorem outwards_sendPublish (p : Publish) (m : Machine) :
    Outwards net m (sendPublish net p m).2 := by
  unfold sendPublish
  split
  · exact .refl
  · simp only
    split
    · exact outwards_sendMapped _ m
    · split
      · exact outwards_sendMapped _ m
      · exact .refl

theorem outwards_afterPublish (msg : ClientMsg) (next : Option MsgState) (r : Rc × Machine) :
    Outwards net r.2 (afterPublish msg next r).2 := by
  unfold afterPublish
  split
  · cases next with
    | none => exact outwards_removeOut rfl r.2
    | some s => exact outwards_updateInflight _ _ r.2
  · split
    · exact outwards_removeOut rfl r.2
    · exact .refl

theorem outwards_single (msg : ClientMsg) (m : Machine) :
    Outwards net m (messageWriteInflightOutSingle net msg m).2 := by
  have hpublish : ∀ (p : Publish) (next : Option MsgState),
      Outwards net m (afterPublish msg next (sendPublish net p m)).2 := fun p next =>
    (outwards_sendPublish p m).trans (outwards_afterPublish msg next _)
  unfold messageWriteInflightOutSingle
  simp only
  split
  · split
    · exact (outwards_lists _ m).trans (outwards_removeOut rfl _)
    · exact outwards_removeOut rfl m
  · split
    · exact hpublish _ _
    · exact hpublish _ _
    · exact hpublish _ _
    · split
      · exact (Relation.ReflTransGen.single (.pubrel msg.mid m)).trans
          (outwards_updateInflight _ _ _)
      · exact .single (.pubrel msg.mid m)
    · exact .refl

theorem outwards_writeInflightLoop (l : List ClientMsg) (m : Machine) :
    Outwards net m (writeInflightLoop net l m).2 := by
  induction l generalizing m with
  | nil => exact .refl
  | cons msg rest ih =>
    unfold writeInflightLoop
    simp only
    split
    · exact outwards_single msg m
    · exact (outwards_single msg m).trans (ih _)

theorem outwards_messageWriteInflightOutLatest (m : Machine) :
    Outwards net m (messageWriteInflightOutLatest net m).2 := by
  unfold messageWriteInflightOutLatest
  split
  · exact .refl
  · exact outwards_writeInflightLoop _ m

theorem outwards_messageWriteQueuedOut (m : Machine) :
    Outwards net m (messageWriteQueuedOut m).2 := by
  unfold messageWriteQueuedOut
  split
  · exact .refl
  · exact outwards_lists _ m

theorem outwards_messageWriteStorageOut (m : Machine) :
    Outwards net m (messageWriteStorageOut m).2 := by
  have hread : Outwards net m { m with db := m.db.read.2 } :=
    outwards_elsewhere ⟨rfl, rfl, rfl, rfl, rfl, rfl, rfl, rfl, rfl⟩
  unfold messageWriteStorageOut
  split
  · exact .refl
  · exact hread.trans (outwards_lists _ _)

/-! ## Inserting -/

theorem elsewhere_insertState (dir : Direction) (qos : Qos) (stored : MsgStore) (m : Machine) :
    Elsewhere m (insertState dir qos stored m).2 := by
  have hleave : Elsewhere m (leaveSlowMode m) := by
    unfold leaveSlowMode Context.setMode
    simp only
    split
    · split <;> exact ⟨rfl, rfl, rfl, rfl, rfl, rfl, rfl, rfl, rfl⟩
    · exact ⟨rfl, rfl, rfl, rfl, rfl, rfl, rfl, rfl, rfl⟩
  have hdrop : ∀ {m' : Machine}, Elsewhere m m' →
      Elsewhere m { m' with ctx := { m'.ctx with isDropping := true } } := fun h =>
    ⟨h.msgStore, h.nowS, h.config, h.id, h.protocol, h.msgsIn, h.msgsOut, h.journal, h.replies⟩
  unfold insertState
  simp only
  split
  · split
    · exact hleave
    · split
      · cases dir with
        | mdOut => exact hleave
        | mdIn =>
          simp only
          split <;> exact hleave
      · split
        · exact hleave
        · exact hdrop hleave
  · split
    · exact ⟨rfl, rfl, rfl, rfl, rfl, rfl, rfl, rfl, rfl⟩
    · exact hdrop ⟨rfl, rfl, rfl, rfl, rfl, rfl, rfl, rfl, rfl⟩

/-- A message of `stored` is placed for the client, its id is noted, and the rest are writes. -/
def Inserts (net : Net) (qos : Qos) (retain : Bool) (stored : MsgStore) (m m' : Machine) : Prop :=
  ∃ id mid properties state m₁, m.ctx.id = some id ∧
    insertRefused .mdOut qos retain stored id m = none ∧ Elsewhere m m₁ ∧
    Outwards net (noteDestId .mdOut retain stored id
      (insertMsg mid .mdOut qos retain stored properties state m₁)) m'

theorem outwards_wakeLazyBridge (m : Machine) : Outwards net m (wakeLazyBridge m) := by
  unfold wakeLazyBridge
  split
  · split
    · exact outwards_elsewhere ⟨rfl, rfl, rfl, rfl, rfl, rfl, rfl, rfl, rfl⟩
    · exact .refl
  · exact .refl

theorem messageInsert_outward (mid : UInt16) (qos : Qos) (retain : Bool) (stored : MsgStore)
    (properties : List Property) (update : Bool) (m : Machine) :
    Elsewhere m (messageInsert net mid .mdOut qos retain stored properties update m).2 ∨
      Inserts net qos retain stored m
        (messageInsert net mid .mdOut qos retain stored properties update m).2 := by
  have hself : Elsewhere m m := ⟨rfl, rfl, rfl, rfl, rfl, rfl, rfl, rfl, rfl⟩
  unfold messageInsert
  split
  · exact .inl hself
  · rename_i id hid
    split
    · exact .inl hself
    · rename_i hrefused
      have hstate := elsewhere_insertState .mdOut qos stored m
      split
      · rename_i hs
        rw [hs] at hstate
        exact .inl hstate
      · rename_i state rc m₁ hs
        rw [hs] at hstate
        have hafter : ∀ m : Machine, Outwards net (noteDestId .mdOut retain stored id m)
            (insertAfter .mdOut qos retain stored id m) := by
          intro m
          unfold insertAfter
          simp only
          split
          · exact (outwards_wakeLazyBridge _).trans (outwards_lists _ _)
          · exact outwards_wakeLazyBridge _
        refine .inr ⟨id, mid, properties, state, m₁, hid, hrefused, hstate, ?_⟩
        refine (hafter _).trans ?_
        simp only
        split
        · have hlatest := @outwards_messageWriteInflightOutLatest net (insertAfter .mdOut qos retain
            stored id (insertMsg mid .mdOut qos retain stored properties state m₁))
          split
          · exact hlatest
          · split
            · exact hlatest.trans (outwards_messageWriteQueuedOut _)
            · exact (hlatest.trans (outwards_messageWriteQueuedOut _)).trans
                (outwards_messageWriteStorageOut _)
        · exact .refl

end Outwards

/-! ## What incoming messages have to do with -/

def Command.isPubrel : Command → Bool
  | .pubrel _ => true
  | _ => false

/-- The packets a client was sent in answer to its own. -/
def Context.acks (ctx : Context) : List Command := ctx.replies.filter fun c => !c.isPubrel

theorem filterMap_of_acks {α : Type} {f : Command → Option α} (hf : ∀ mid, f (.pubrel mid) = none)
    {ctx ctx' : Context} (h : ctx'.acks = ctx.acks) :
    ctx'.replies.filterMap f = ctx.replies.filterMap f := by
  have hacks : ∀ ctx : Context, ctx.replies.filterMap f = ctx.acks.filterMap f := by
    intro ctx
    unfold Context.acks
    rw [List.filterMap_filter]
    refine List.filterMap_congr fun c _ => ?_
    cases c with
    | pubrel mid => exact hf mid
    | _ => rfl
  rw [hacks, hacks, h]

/-- The incoming messages of a client, and the answers. -/
def Context.incoming (ctx : Context) : MsgData × List Command := (ctx.msgsIn, ctx.acks)

section Incoming

variable {net : Net} {m m' : Machine}

theorem incoming_elsewhere (h : Elsewhere m m') :
    m'.ctx.incoming = m.ctx.incoming ∧ m'.db.nowS = m.db.nowS :=
  ⟨by simp only [Context.incoming, Context.acks, h.msgsIn, h.replies], h.nowS⟩

theorem incoming_outward (h : Outward net m m') :
    m'.ctx.incoming = m.ctx.incoming ∧ m'.db.nowS = m.db.nowS := by
  cases h with
  | elsewhere h => exact incoming_elsewhere h
  | lists f => exact ⟨rfl, rfl⟩
  | pubrel mid =>
    refine ⟨Prod.ext rfl ?_, rfl⟩
    show List.filter _ (m.ctx.replies ++ [Command.pubrel mid]) = _
    rw [List.filter_append]
    exact List.append_nil _
  | refDec s => exact ⟨rfl, (rests_refDec s m).nowS⟩
  | note s id => exact ⟨rfl, rfl⟩
  | removed item he => exact ⟨rfl, rfl⟩

theorem incoming_outwards (h : Outwards net m m') :
    m'.ctx.incoming = m.ctx.incoming ∧ m'.db.nowS = m.db.nowS := by
  induction h with
  | refl => exact ⟨rfl, rfl⟩
  | tail _ hw ih => exact ⟨(incoming_outward hw).1.trans ih.1, (incoming_outward hw).2.trans ih.2⟩

theorem incoming_messageInsert (mid : UInt16) (qos : Qos) (retain : Bool) (stored : MsgStore)
    (properties : List Property) (update : Bool) (m : Machine) :
    (messageInsert net mid .mdOut qos retain stored properties update m).2.ctx.incoming =
        m.ctx.incoming ∧
      (messageInsert net mid .mdOut qos retain stored properties update m).2.db.nowS = m.db.nowS := by
  rcases @messageInsert_outward net mid qos retain stored properties update m with h |
    ⟨id, mid', properties', state, m₁, -, -, hbefore, hafter⟩
  · exact incoming_elsewhere h
  · have hplaced : (insertMsg mid' .mdOut qos retain stored properties' state m₁).ctx.incoming =
        m₁.ctx.incoming ∧
        (insertMsg mid' .mdOut qos retain stored properties' state m₁).db.nowS = m₁.db.nowS := by
      unfold insertMsg
      simp only
      split <;> exact ⟨rfl, rfl⟩
    have hnote : ∀ m : Machine, (noteDestId .mdOut retain stored id m).ctx.incoming =
        m.ctx.incoming ∧ (noteDestId .mdOut retain stored id m).db.nowS = m.db.nowS := by
      intro m
      unfold noteDestId
      split <;> exact ⟨rfl, rfl⟩
    have h₁ := incoming_elsewhere hbefore
    have h₂ := incoming_outwards hafter
    exact ⟨((h₂.1.trans (hnote _).1).trans hplaced.1).trans h₁.1,
      ((h₂.2.trans (hnote _).2).trans hplaced.2).trans h₁.2⟩

end Incoming

end AdaptiveMqtt.Db
