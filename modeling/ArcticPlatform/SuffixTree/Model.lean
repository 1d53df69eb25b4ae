import Mathlib.Data.List.AList
import Mathlib.Tactic

/-!
# Suffix tree: state and operations

An embedding of the C++ class `SuffixTree`.  Nodes live in a heap addressed
by identities that are never reused, so `Node*` is a `NodeId` and a
deleted node is one that no pointer of the tree reaches.  The pointers of the
sibling and group lists are kept in a heap of their own, `Siblings`: they
serve speculation, and `append` and `remove` write but never read them
to decide what to do with the tree.

`Int32Map` is a finite map whose iteration order is unspecified.  The two
places where `remove` takes `begin()` of a map with several entries
read a `Layout`, which stands for the slot order of those hash tables.

Integers are unbounded: the source stores positions as `int32_t` and counts
as `int64_t`, so the model stands for sequences of fewer than `2 ^ 31` tokens,
and for trees of fewer than `2 ^ 63` tokens in all.
-/

namespace ArcticPlatform.SuffixTree

/-! ## Int32Map -/

/-- `Int32Map::KEY_EMPTY`. -/
def keyEmpty : Int := -2147483648

/-- `Int32Map::KEY_TOMBSTONE`. -/
def keyTombstone : Int := keyEmpty + 1

/-- The keys that an `Int32Map` operation accepts without throwing `invalid key`. -/
def ValidKey (k : Int) : Prop :=
  -2147483648 ≤ k ∧ k ≤ 2147483647 ∧ k ≠ keyEmpty ∧ k ≠ keyTombstone

instance (k : Int) : Decidable (ValidKey k) :=
  inferInstanceAs (Decidable (_ ∧ _ ∧ _ ∧ _))

/-- Tokens and sequence ids: 32-bit integers other than the two reserved keys. -/
abbrev Key := { k : Int // ValidKey k }

instance : Inhabited Key :=
  ⟨⟨0, by decide⟩⟩

/-- A finite map from keys; the entry order stands for no property of the hash table. -/
abbrev Int32Map (β : Type) := AList (fun _ : Key => β)

namespace Int32Map

variable {β : Type}

/-- `*begin()`: the entry that the hash table happens to hold first, chosen by `pick`. -/
def begin (pick : List Key → Nat) (m : Int32Map β) : Option (Key × β) :=
  (m.entries[pick m.keys % m.entries.length]?).map fun e => (e.1, e.2)

end Int32Map

/-! ## Nodes and the tree state -/

abbrev NodeId := Nat

abbrev GroupId := Nat

/-- `Node`, without the sibling and group pointers. -/
structure Node where
  count : Int := 0
  token : Key := default
  length : Nat := 0
  refSeq : Key := default
  refIdx : Int := -1
  endpoints : Int32Map Nat := ∅
  parent : Option NodeId := none
  children : Int32Map NodeId := ∅

/-- The sibling and group pointers of a `Node`. -/
structure Links where
  headChild : Option NodeId := none
  tailChild : Option NodeId := none
  nextSibling : Option NodeId := none
  prevSibling : Option NodeId := none
  group : Option GroupId := none

/-- `Group`. -/
structure Group where
  head : NodeId
  next : Option GroupId := none
  prev : Option GroupId := none

/-- The heap of sibling lists and groups. -/
structure Siblings where
  links : NodeId → Links
  groups : GroupId → Group
  nextGroup : GroupId

/-- `SuffixTree`. -/
structure State where
  maxDepth : Nat
  root : NodeId
  node : NodeId → Node
  nextNode : NodeId
  seqs : Int32Map (List Key)
  activeNodes : Int32Map (List NodeId)
  siblings : Siblings

/-- `SuffixTree::SuffixTree`. -/
def init (maxDepth : Nat) : State where
  maxDepth := maxDepth
  root := 0
  node := fun _ => {}
  nextNode := 1
  seqs := ∅
  activeNodes := ∅
  siblings := ⟨fun _ => {}, fun _ => ⟨0, none, none⟩, 0⟩

namespace State

/-- Write through a node pointer. -/
def setNode (st : State) (i : NodeId) (n : Node) : State :=
  { st with node := Function.update st.node i n }

/-- `_seqs[seqId]`, which is empty for an unknown id. -/
def seq (st : State) (seqId : Key) : List Key :=
  (st.seqs.lookup seqId).getD []

/-- `_seqs[seqId][idx]`. -/
def seqAt (st : State) (seqId : Key) (idx : Int) : Option Key :=
  if 0 ≤ idx then (st.seq seqId)[idx.toNat]? else none

/-- `ref_data[idx]`: the token at offset `idx` of the label of a node. -/
def refToken (st : State) (i : NodeId) (idx : Nat) : Option Key :=
  st.seqAt (st.node i).refSeq ((st.node i).refIdx + idx)

end State

/-! ## Sibling and group lists -/

namespace Siblings

def setLinks (sib : Siblings) (i : NodeId) (f : Links → Links) : Siblings :=
  { sib with links := Function.update sib.links i (f (sib.links i)) }

def setGroup (sib : Siblings) (g : GroupId) (f : Group → Group) : Siblings :=
  { sib with groups := Function.update sib.groups g (f (sib.groups g)) }

/-- `node->group.get()`. -/
def groupOf (sib : Siblings) (i : NodeId) : GroupId :=
  (sib.links i).group.getD 0

/-- `new Group(head)`. -/
def newGroup (sib : Siblings) (head : NodeId) : Siblings × GroupId :=
  ({ sib with
      groups := Function.update sib.groups sib.nextGroup { head := head }
      nextGroup := sib.nextGroup + 1 }, sib.nextGroup)

/-- Take a group out of the list of groups. -/
def unlinkGroup (sib : Siblings) (g : GroupId) : Siblings :=
  let group := sib.groups g
  let sib := match group.prev with
    | some prev => sib.setGroup prev fun x => { x with next := group.next }
    | none => sib
  match group.next with
  | some next => sib.setGroup next fun x => { x with prev := group.prev }
  | none => sib

/-- The node's group, created when the node has none. -/
def ownGroup (sib : Siblings) (node : NodeId) : Siblings × GroupId :=
  match (sib.links node).group with
  | some g => (sib, g)
  | none =>
    let (sib, g) := sib.newGroup node
    (sib.setLinks node fun l => { l with group := some g }, g)

end Siblings

open Siblings

section SiblingLists

variable (heap : NodeId → Node)

/-- `_remove_from_siblings`. -/
def removeFromSiblings (sib : Siblings) (node : NodeId) : Siblings :=
  let links := sib.links node
  let group := sib.groupOf node
  let parent := (heap node).parent.getD 0
  let onlyMember (sib : Siblings) : Siblings :=
    (sib.unlinkGroup group).setGroup group fun g => { g with prev := none, next := none }
  let sib :=
    if (sib.groups group).head = node then
      match links.nextSibling with
      | some next =>
        if (heap next).count = (heap node).count then
          (sib.setGroup group fun g => { g with head := next }).setLinks node
            fun l => { l with group := none }
        else onlyMember sib
      | none => onlyMember sib
    else sib.setLinks node fun l => { l with group := none }
  let sib := match links.nextSibling with
    | some next => sib.setLinks next fun l => { l with prevSibling := links.prevSibling }
    | none => sib.setLinks parent fun l => { l with tailChild := links.prevSibling }
  let sib := match links.prevSibling with
    | some prev => sib.setLinks prev fun l => { l with nextSibling := links.nextSibling }
    | none => sib.setLinks parent fun l => { l with headChild := links.nextSibling }
  sib.setLinks node fun l => { l with prevSibling := none, nextSibling := none }

/-- `_insert_into_siblings_before`. -/
def insertIntoSiblingsBefore (sib : Siblings) (node other : NodeId) : Siblings :=
  let parent := (heap node).parent.getD 0
  let prev := (sib.links other).prevSibling
  let sib := match prev with
    | some p => sib.setLinks p fun l => { l with nextSibling := some node }
    | none => sib.setLinks parent fun l => { l with headChild := some node }
  let sib := sib.setLinks node fun l => { l with nextSibling := some other, prevSibling := prev }
  let sib := sib.setLinks other fun l => { l with prevSibling := some node }
  let joinOther (sib : Siblings) : Siblings :=
    let sib := sib.setLinks node fun l => { l with group := (sib.links other).group }
    sib.setGroup (sib.groupOf node) fun g => { g with head := node }
  let ownOther (sib : Siblings) (prev : Option NodeId) : Siblings :=
    let (sib, g) := sib.ownGroup node
    let sib := match prev with
      | some p =>
        let before := sib.groupOf p
        (sib.setGroup g fun x => { x with prev := some before }).setGroup before
          fun x => { x with next := some g }
      | none => sib
    let after := sib.groupOf other
    (sib.setGroup g fun x => { x with next := some after }).setGroup after
      fun x => { x with prev := some g }
  match prev with
  | some p =>
    if (heap node).count = (heap p).count then
      sib.setLinks node fun l => { l with group := (sib.links p).group }
    else if (heap node).count = (heap other).count then joinOther sib
    else ownOther sib (some p)
  | none =>
    if (heap node).count = (heap other).count then joinOther sib
    else ownOther sib none

/-- `_insert_into_siblings_after`. -/
def insertIntoSiblingsAfter (sib : Siblings) (node other : NodeId) : Siblings :=
  let parent := (heap node).parent.getD 0
  let next := (sib.links other).nextSibling
  let sib := match next with
    | some n => sib.setLinks n fun l => { l with prevSibling := some node }
    | none => sib.setLinks parent fun l => { l with tailChild := some node }
  let sib := sib.setLinks node fun l => { l with prevSibling := some other, nextSibling := next }
  let sib := sib.setLinks other fun l => { l with nextSibling := some node }
  let joinOther (sib : Siblings) : Siblings :=
    sib.setLinks node fun l => { l with group := (sib.links other).group }
  let ownOther (sib : Siblings) (next : Option NodeId) : Siblings :=
    let (sib, g) := sib.ownGroup node
    let sib := match next with
      | some n =>
        let after := sib.groupOf n
        (sib.setGroup g fun x => { x with next := some after }).setGroup after
          fun x => { x with prev := some g }
      | none => sib
    let before := sib.groupOf other
    (sib.setGroup g fun x => { x with prev := some before }).setGroup before
      fun x => { x with next := some g }
  match next with
  | some n =>
    if (heap node).count = (heap n).count then
      let sib := sib.setLinks node fun l => { l with group := (sib.links n).group }
      if (sib.groups (sib.groupOf node)).head = n then
        sib.setGroup (sib.groupOf node) fun g => { g with head := node }
      else sib
    else if (heap node).count = (heap other).count then joinOther sib
    else ownOther sib (some n)
  | none =>
    if (heap node).count = (heap other).count then joinOther sib
    else ownOther sib none

/-- `_replace_in_siblings`. -/
def replaceInSiblings (sib : Siblings) (oldNode newNode : NodeId) : Siblings :=
  let links := sib.links oldNode
  let parent := (heap oldNode).parent.getD 0
  let sib := match links.nextSibling with
    | some next => sib.setLinks next fun l => { l with prevSibling := some newNode }
    | none => sib.setLinks parent fun l => { l with tailChild := some newNode }
  let sib := match links.prevSibling with
    | some prev => sib.setLinks prev fun l => { l with nextSibling := some newNode }
    | none => sib.setLinks parent fun l => { l with headChild := some newNode }
  let sib := sib.setLinks newNode fun l =>
    { l with prevSibling := links.prevSibling, nextSibling := links.nextSibling }
  let sib := sib.setLinks oldNode fun l => { l with prevSibling := none, nextSibling := none }
  let group := sib.groupOf oldNode
  let sib :=
    if (sib.groups group).head = oldNode then
      sib.setGroup group fun g => { g with head := newNode }
    else sib
  let sib := sib.setLinks newNode fun l => { l with group := (sib.links oldNode).group }
  sib.setLinks oldNode fun l => { l with group := none }

/-- The node leaves its group and heads a new group in front of it. -/
def splitGroupBefore (sib : Siblings) (node next : NodeId) : Siblings :=
  let orig := sib.groupOf node
  let sib := sib.setGroup orig fun g => { g with head := next }
  let (sib, g) := sib.newGroup node
  let sib := sib.setGroup g fun x => { x with next := some orig }
  let sib := match (sib.groups orig).prev with
    | some prev =>
      (sib.setGroup g fun x => { x with prev := some prev }).setGroup prev
        fun x => { x with next := some g }
    | none => sib
  let sib := sib.setGroup orig fun x => { x with prev := some g }
  sib.setLinks node fun l => { l with group := some g }

/-- The node leaves its group and heads a new group behind it. -/
def splitGroupAfter (sib : Siblings) (node : NodeId) : Siblings :=
  let orig := sib.groupOf node
  let (sib, g) := sib.newGroup node
  let sib := sib.setGroup g fun x => { x with prev := some orig }
  let sib := match (sib.groups orig).next with
    | some next =>
      (sib.setGroup g fun x => { x with next := some next }).setGroup next
        fun x => { x with prev := some g }
    | none => sib
  let sib := sib.setGroup orig fun x => { x with next := some g }
  sib.setLinks node fun l => { l with group := some g }

/-- The list part of `_increment_count`; `heap'` is the heap with the new count. -/
def incrementInSiblings (heap' : NodeId → Node) (sib : Siblings) (node : NodeId) : Siblings :=
  let links := sib.links node
  let stays (sib : Siblings) : Siblings :=
    match links.nextSibling with
    | none => sib
    | some next =>
      if (heap next).count < (heap node).count then sib
      else splitGroupBefore sib node next
  match links.prevSibling with
  | none => stays sib
  | some prev =>
    if (heap prev).count > (heap node).count + 1 then stays sib
    else
      let other := (sib.groups (sib.groupOf prev)).head
      insertIntoSiblingsBefore heap' (removeFromSiblings heap sib node) node other

/-- The list part of `_decrement_count`; `heap'` is the heap with the new count. -/
def decrementInSiblings (heap' : NodeId → Node) (sib : Siblings) (node : NodeId) : Siblings :=
  let links := sib.links node
  let stays (sib : Siblings) : Siblings :=
    match links.prevSibling with
    | none => sib
    | some prev =>
      if (heap prev).count > (heap node).count then sib
      else splitGroupAfter sib node
  match links.nextSibling with
  | none => stays sib
  | some next =>
    if (heap next).count < (heap node).count - 1 then stays sib
    else if (heap next).count = (heap node).count - 1 then
      let group := sib.groupOf node
      let sib := sib.setGroup (sib.groupOf next) fun g => { g with head := node }
      let sib := if (sib.groups group).head = node then sib.unlinkGroup group else sib
      sib.setLinks node fun l => { l with group := (sib.links next).group }
    else
      let otherGroup := (sib.groups (sib.groupOf node)).next
      let sib := removeFromSiblings heap sib node
      match otherGroup with
      | none =>
        let parent := (heap node).parent.getD 0
        insertIntoSiblingsAfter heap' sib node ((sib.links parent).tailChild.getD 0)
      | some g => insertIntoSiblingsBefore heap' sib node (sib.groups g).head

end SiblingLists

/-! ## Counts -/

/-- `_increment_count`. -/
def incrementCount (st : State) (i : NodeId) : State :=
  let n := st.node i
  let st' := st.setNode i { n with count := n.count + 1 }
  match n.parent with
  | none => st'
  | some _ => { st' with siblings := incrementInSiblings st.node st'.node st.siblings i }

/-- `_decrement_count`. -/
def decrementCount (st : State) (i : NodeId) : State :=
  let n := st.node i
  let st' := st.setNode i { n with count := n.count - 1 }
  match n.parent with
  | none => st'
  | some _ => { st' with siblings := decrementInSiblings st.node st'.node st.siblings i }

end ArcticPlatform.SuffixTree
