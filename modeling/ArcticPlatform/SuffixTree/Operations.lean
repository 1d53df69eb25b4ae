import ArcticPlatform.SuffixTree.Model

/-!
# Suffix tree: append, extend, remove and context matching

The active-node loop of `append` is one definition per case of the source,
dispatched by `appendActive`.  `remove` takes one suffix out at a time:
it walks down the path of the suffix, merges the last node with an only child of
equal count, and redirects the references of the visited nodes.
-/

namespace ArcticPlatform.SuffixTree

/-! ## Append -/

section Append

variable (st : State) (seqId token : Key) (seqLen : Nat) (node : NodeId)

/-- Case 1a: the active node is a leaf of this suffix alone and grows by one token. -/
def extendLeaf : State × NodeId :=
  let n := st.node node
  let ends := n.endpoints.insert seqId ((n.endpoints.lookup seqId).getD 0 + 1)
  (st.setNode node { n with length := n.length + 1, endpoints := ends }, node)

/-- Case 1b: the suffix continues into a new child of the active node. -/
def addChild : State × NodeId :=
  let newChild := st.nextNode
  let n := st.node node
  let child : Node :=
    { count := 1, token := token, length := 1, refSeq := seqId, refIdx := (seqLen : Int) - 1,
      parent := some node, endpoints := AList.singleton seqId seqLen }
  let st := st.setNode newChild child
  let children := n.children.insert token newChild
  let st := st.setNode node { n with children := children, endpoints := n.endpoints.erase seqId }
  let sib :=
    if children.entries.length = 1 then
      let sib := st.siblings.setLinks node fun l =>
        { l with headChild := some newChild, tailChild := some newChild }
      let (sib, g) := sib.newGroup newChild
      sib.setLinks newChild fun l => { l with group := some g }
    else
      insertIntoSiblingsAfter st.node st.siblings newChild
        ((st.siblings.links node).tailChild.getD 0)
  ({ st with nextNode := newChild + 1, siblings := sib }, newChild)

/-- Case 2a: the active node is fused into its only child, which is one token long. -/
def fuseChild (child : NodeId) : State × NodeId :=
  let n := st.node node
  let c := st.node child
  let parent := n.parent.getD 0
  let length := n.length + 1
  let fused : Node :=
    { c with
      count := c.count + 1, token := n.token, length := length, refSeq := seqId,
      refIdx := (seqLen : Int) - length, endpoints := c.endpoints.insert seqId seqLen,
      parent := n.parent }
  let st := st.setNode child fused
  let sib := replaceInSiblings st.node st.siblings node child
  let st := st.setNode node { n with children := n.children.erase token }
  let p := st.node parent
  let st := st.setNode parent { p with children := p.children.insert fused.token child }
  ({ st with siblings := sib }, child)

/-- Case 2b: the boundary between the active node and its only child moves one token down. -/
def shiftBoundary (child : NodeId) : State × NodeId :=
  let n := st.node node
  let length := n.length + 1
  let ends := n.endpoints.insert seqId ((n.endpoints.lookup seqId).getD 0 + 1)
  let c := st.node child
  let refIdx := c.refIdx + 1
  let childToken := (st.seqAt c.refSeq refIdx).getD default
  let children :=
    if childToken ≠ token then (n.children.insert childToken child).erase token
    else n.children
  let st := st.setNode child { c with length := c.length - 1, refIdx := refIdx, token := childToken }
  let st := st.setNode node
    { n with
      length := length, endpoints := ends, refSeq := seqId,
      refIdx := (seqLen : Int) - length, children := children }
  (st, node)

/-- Case 3a: the suffix ends at the child, which is one token long. -/
def enterChild (child : NodeId) : State × NodeId :=
  let n := st.node node
  let st := st.setNode node { n with endpoints := n.endpoints.erase seqId }
  let c := st.node child
  let st := st.setNode child { c with endpoints := c.endpoints.insert seqId seqLen }
  (incrementCount st child, child)

/-- Case 3b: the child is split after its first token, and the suffix ends in between. -/
def splitChild (child : NodeId) : State × NodeId :=
  let newNode := st.nextNode
  let n := st.node node
  let c := st.node child
  let refIdx := c.refIdx + 1
  let childToken := (st.seqAt c.refSeq refIdx).getD default
  let middle : Node :=
    { count := c.count, token := token, length := 1, refSeq := seqId, refIdx := (seqLen : Int) - 1,
      parent := some node, children := AList.singleton childToken child,
      endpoints := AList.singleton seqId seqLen }
  let st := st.setNode newNode middle
  let sib := replaceInSiblings st.node st.siblings child newNode
  let st := st.setNode node
    { n with children := n.children.insert token newNode, endpoints := n.endpoints.erase seqId }
  let st := st.setNode child
    { c with
      length := c.length - 1, refIdx := refIdx, token := childToken, parent := some newNode }
  let sib := sib.setLinks newNode fun l =>
    { l with headChild := some child, tailChild := some child }
  let (sib, g) := sib.newGroup child
  let sib := sib.setLinks child fun l => { l with group := some g }
  (incrementCount { st with nextNode := newNode + 1, siblings := sib } newNode, newNode)

/-- One iteration of the loop over the active nodes; returns the new active node. -/
def appendActive : State × NodeId :=
  match (st.node node).children.lookup token with
  | none =>
    if (st.node node).count = 1 ∧ node ≠ st.root then extendLeaf st seqId node
    else addChild st seqId token seqLen node
  | some child =>
    if (st.node node).count = (st.node child).count + 1 ∧ node ≠ st.root then
      if (st.node child).length = 1 then fuseChild st seqId token seqLen node child
      else shiftBoundary st seqId token seqLen node child
    else if (st.node child).length = 1 then enterChild st seqId seqLen node child
    else splitChild st seqId token seqLen node child

end Append

/-- The loop over the active nodes, oldest suffix first. -/
def appendLoop (seqId token : Key) (seqLen : Nat) : State → List NodeId → State × List NodeId
  | st, [] => (st, [])
  | st, node :: rest =>
    let (st, node') := appendActive st seqId token seqLen node
    let (st, rest') := appendLoop seqId token seqLen st rest
    (st, node' :: rest')

/-- The part of `append` before the loop: open the suffix that starts at the new token. -/
def appendOpen (st : State) (seqId token : Key) : State × List NodeId :=
  let seq := st.seq seqId
  let active := (st.activeNodes.lookup seqId).getD [] ++ [st.root]
  let r := st.node st.root
  let st := st.setNode st.root
    { r with endpoints := r.endpoints.insert seqId seq.length, count := r.count + 1 }
  let active := if st.maxDepth < active.length then active.tail else active
  ({ st with seqs := st.seqs.insert seqId (seq ++ [token]) }, active)

/-- `SuffixTree::append`. -/
def append (st : State) (seqId token : Key) : State :=
  let (st, active) := appendOpen st seqId token
  let (st, active) := appendLoop seqId token (st.seq seqId).length st active
  { st with activeNodes := st.activeNodes.insert seqId active }

/-- `SuffixTree::extend`. -/
def extend (st : State) (seqId : Key) (tokens : List Key) : State :=
  tokens.foldl (fun st token => append st seqId token) st

/-! ## Remove -/

/-- Slot orders of the hash tables whose `begin()` the removal of a suffix reads: those of the
children maps on the way to a leaf, by start and step, and that of the leaf's endpoints. -/
structure Layout where
  child : Nat → Nat → List Key → Nat
  endpoint : Nat → List Key → Nat

/-- Where the walk down one suffix ended. -/
structure Walk where
  st : State
  node : NodeId
  path : List NodeId

/-- The inner loop of `remove`.  Every node is at least one token long, so `fuel` iterations
reach the end of a sequence with `fuel` tokens left. -/
def removeWalk (seqId : Key) (seq : List Key) :
    Nat → State → NodeId → Nat → List NodeId → Walk
  | 0, st, node, _, path => ⟨st, node, path⟩
  | fuel + 1, st, node, idx, path =>
    match seq[idx]? with
    | none => ⟨st, node, path⟩
    | some token =>
      match (st.node node).children.lookup token with
      | none => ⟨st, node, path⟩
      | some child =>
        if (st.node child).count > 1 then
          let st := decrementCount st child
          let c := st.node child
          let st := st.setNode child { c with endpoints := c.endpoints.erase seqId }
          removeWalk seqId seq fuel st child (idx + c.length) (path ++ [child])
        else
          let sib := removeFromSiblings st.node st.siblings child
          let n := st.node node
          let st := st.setNode node { n with children := n.children.erase token }
          ⟨{ st with siblings := sib }, node, path⟩

/-- The last visited node is merged into its only child when their counts agree. -/
def removeMerge (w : Walk) : Walk :=
  let n := w.st.node w.node
  match n.children.entries with
  | [⟨_, child⟩] =>
    let c := w.st.node child
    if w.node ≠ w.st.root ∧ n.count = c.count then
      let merged : Node :=
        { c with
          token := n.token, length := c.length + n.length, refIdx := c.refIdx - n.length,
          parent := n.parent }
      let st := w.st.setNode child merged
      let sib := replaceInSiblings st.node st.siblings w.node child
      let st := st.setNode w.node { n with children := ∅ }
      let parent := n.parent.getD 0
      let p := st.node parent
      let st := st.setNode parent { p with children := p.children.insert merged.token child }
      ⟨{ st with siblings := sib }, child, w.path.dropLast ++ [child]⟩
    else w
  | _ => w

/-- Descend to a leaf through the first child of each node; returns the leaf and its distance.
The tree is at most `maxDepth` tokens deep, which bounds the number of steps. -/
def descend (layout : Nat → List Key → Nat) (st : State) :
    Nat → NodeId → Nat → NodeId × Nat
  | 0, leaf, distance => (leaf, distance)
  | fuel + 1, leaf, distance =>
    match Int32Map.begin (layout fuel) (st.node leaf).children with
    | none => (leaf, distance)
    | some (_, child) => descend layout st fuel child (distance + (st.node child).length)

/-- Redirect the references to `seqId` of the visited nodes, deepest first. -/
def repairRefs (seqId refSeq : Key) : List NodeId → Int → State → State
  | [], _, st => st
  | i :: rest, refIdx, st =>
    let n := st.node i
    let refIdx := refIdx - n.length
    let st :=
      if n.refSeq = seqId then st.setNode i { n with refSeq := refSeq, refIdx := refIdx } else st
    repairRefs seqId refSeq rest refIdx st

/-- The iteration of `remove` for the suffix that starts at `start`. -/
def removeSuffix (layout : Layout) (seqId : Key) (seq : List Key) (st : State) (start : Nat) :
    State :=
  let r := st.node st.root
  let st := st.setNode st.root { r with count := r.count - 1 }
  let w := removeMerge (removeWalk seqId seq (seq.length - start) st st.root start [])
  let (leaf, distance) := descend (layout.child start) w.st w.st.maxDepth w.node 0
  let ends := (w.st.node leaf).endpoints
  if (ends.lookup seqId).isSome then w.st
  else
    match Int32Map.begin (layout.endpoint start) ends with
    | none => w.st
    | some (refSeq, endIdx) =>
      repairRefs seqId refSeq w.path.reverse ((endIdx : Int) - distance) w.st

/-- `SuffixTree::remove`. -/
def remove (layout : Layout) (st : State) (seqId : Key) : State :=
  let seq := st.seq seqId
  let st := (List.range seq.length).foldl (removeSuffix layout seqId seq) st
  { st with seqs := st.seqs.erase seqId, activeNodes := st.activeNodes.erase seqId }

/-! ## Context matching -/

/-- The loop of `_match_context` from the position `idx` of the label of `node`. -/
def matchFrom (st : State) : List Key → NodeId → Nat → Option (NodeId × Nat)
  | [], node, idx => some (node, idx)
  | token :: rest, node, idx =>
    if idx ≥ (st.node node).length then
      match (st.node node).children.lookup token with
      | none => none
      | some child => if st.refToken child 0 = some token then matchFrom st rest child 1 else none
    else if st.refToken node idx = some token then matchFrom st rest node (idx + 1)
    else none

/-- `SuffixTree::_match_context`; `none` stands for the null pointer. -/
def matchContext (st : State) (context : List Key) : Option (NodeId × Nat) :=
  matchFrom st context st.root 0

/-! ## Runs -/

/-- The calls that change a tree. -/
inductive Op where
  | append (seqId token : Key)
  | extend (seqId : Key) (tokens : List Key)
  | remove (seqId : Key) (layout : Layout)

/-- Effect of one call. -/
def step (st : State) : Op → State
  | .append seqId token => append st seqId token
  | .extend seqId tokens => extend st seqId tokens
  | .remove seqId layout => remove layout st seqId

/-- The tree after a sequence of calls on an empty tree. -/
def run (maxDepth : Nat) (ops : List Op) : State :=
  ops.foldl step (init maxDepth)

end ArcticPlatform.SuffixTree
