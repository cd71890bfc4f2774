import OpenDsn.Lib.Table
import OpenDsn.Mpool.Message

/-!
# The state tree and its snapshots

`chain/state/statetree.go`: actors by ID over a saved tree (`root`), with changes kept
in layers. A snapshot adds a layer; clearing it merges the last layer into the one
below; reverting replaces the last layer by an empty one. Reads write as well: an actor
read from `root` is put into the last layer, and so is the ID that an address was
resolved to. Resolved addresses are searched only in the layers up to the index
`lastMaybeNonEmptyResolveCache`.

Addresses are resolved by the state of the init actor, which is itself an actor of the
tree.

`RefTree` is what the layers are for: a stack of complete maps. Each operation has its
counterpart there, on the map at the top.
-/

namespace OpenDsn.State

open Lib Mpool

abbrev ActorId := Nat

/-! ## Layers -/

inductive StreeOp (Act : Type)
  | set (act : Act)
  | delete
deriving DecidableEq

structure StateSnapLayer (Act : Type) where
  actors : Table ActorId (StreeOp Act)
  resolveCache : Table Address ActorId

/-- The layers, the last one first, of which there is always one. -/
structure StateSnaps (Act : Type) where
  last : StateSnapLayer Act
  below : List (StateSnapLayer Act)
  /-- `lastMaybeNonEmptyResolveCache + 1`: how many layers, counted from the first, may
  have resolved addresses. -/
  maybeNonEmpty : Nat

variable {Act : Type}

def newStateSnapLayer : StateSnapLayer Act := ⟨∅, ∅⟩

def newStateSnaps : StateSnaps Act := ⟨newStateSnapLayer, [], 1⟩

namespace StateSnaps

variable (ss : StateSnaps Act)

def layers : List (StateSnapLayer Act) := ss.last :: ss.below

def addLayer : StateSnaps Act :=
  { ss with last := newStateSnapLayer, below := ss.layers }

/-- The index of `dropLayer`, when `n` layers are left. -/
def dropIndex (maybeNonEmpty n : Nat) : Nat :=
  if maybeNonEmpty = n + 1 then n else maybeNonEmpty

/-- `mergeLastLayer`, which needs a second layer. -/
def mergeLastLayer : Option (StateSnaps Act) :=
  match ss.below with
  | [] => none
  | nextLast :: rest =>
      some
        { last :=
            { actors := nextLast.actors.merge ss.last.actors
              resolveCache := nextLast.resolveCache.merge ss.last.resolveCache }
          below := rest
          maybeNonEmpty := dropIndex ss.maybeNonEmpty ss.below.length }

/-- The last layer is dropped and an empty one added. -/
def dropAndAddLayer : StateSnaps Act :=
  { last := newStateSnapLayer
    below := ss.below
    maybeNonEmpty := dropIndex ss.maybeNonEmpty ss.below.length }

/-- The loop of `resolveAddress` over the layers from some index down. The index of a
layer is the number of layers behind it. -/
def resolveLoop (addr : Address) : List (StateSnapLayer Act) → Nat → Option ActorId × Nat
  | [], maybeNonEmpty => (none, maybeNonEmpty)
  | layer :: rest, maybeNonEmpty =>
      if layer.resolveCache.size = 0 then
        resolveLoop addr rest (dropIndex maybeNonEmpty rest.length)
      else
        match layer.resolveCache.get? addr with
        | some resa => (some resa, maybeNonEmpty)
        | none => resolveLoop addr rest maybeNonEmpty

/-- The layers that are searched for an address. -/
def searched : List (StateSnapLayer Act) :=
  ss.layers.drop (ss.layers.length - ss.maybeNonEmpty)

def resolveAddress (addr : Address) : Option ActorId × StateSnaps Act :=
  match resolveLoop addr ss.searched ss.maybeNonEmpty with
  | (found, maybeNonEmpty) => (found, { ss with maybeNonEmpty })

def cacheResolveAddress (addr : Address) (resa : ActorId) : StateSnaps Act :=
  { ss with
    last := { ss.last with resolveCache := ss.last.resolveCache.insert addr resa }
    maybeNonEmpty := ss.layers.length }

/-- The newest entry for an actor. -/
def findOp : List (StateSnapLayer Act) → ActorId → Option (StreeOp Act)
  | [], _ => none
  | layer :: rest, i =>
      match layer.actors.get? i with
      | some op => some op
      | none => findOp rest i

def putOp (i : ActorId) (op : StreeOp Act) : StateSnaps Act :=
  { ss with last := { ss.last with actors := ss.last.actors.insert i op } }

def setActor (i : ActorId) (act : Act) : StateSnaps Act :=
  ss.putOp i (.set act)

def deleteActor (i : ActorId) : StateSnaps Act := ss.putOp i .delete

end StateSnaps

/-! ## The tree -/

/-- What the state of the init actor says about an address. -/
inductive Resolved
  | loadFailed
  | resolveFailed
  | notFound
  | found (i : ActorId)

/-- The surroundings: the address table in the state of the init actor, and the order in
which maps are visited. -/
structure TreeEnv (Act : Type) where
  resolveAddress : Act → Address → Resolved
  order : Arrangement

/-- The ID of `init_.Address`. -/
def initId : ActorId := 1

inductive TreeError
  /-- `types.ErrActorNotFound` -/
  | actorNotFound
  /-- "GetActor called on undefined address" -/
  | getUndefined
  /-- "DeleteActor called on undefined address" -/
  | deleteUndefined
  /-- "ID lookup failed" -/
  | idLookup (e : TreeError)
  /-- "resolution lookup failed (%s)" -/
  | resolutionLookup (addr : Address) (e : TreeError)
  /-- "address resolution" -/
  | addressResolution (e : TreeError)
  /-- "getting init actor" -/
  | gettingInit (e : TreeError)
  /-- "loading init actor state" -/
  | loadingInit
  /-- "resolve address %s", of an address that is not in the table -/
  | resolve (addr : Address) (e : TreeError)
  /-- An error of the address table. -/
  | table

/-- `xerrors.Is(err, types.ErrActorNotFound)`. -/
def TreeError.isActorNotFound : TreeError → Bool
  | .actorNotFound => true
  | .idLookup e | .resolutionLookup _ e | .addressResolution e | .gettingInit e | .resolve _ e =>
      e.isActorNotFound
  | .getUndefined | .deleteUndefined | .loadingInit | .table => false

/-- The error of `GetActor` and `DeleteActor` for an address that does not resolve. -/
def lookupFailed (addr : Address) (e : TreeError) : TreeError :=
  if e.isActorNotFound then .resolutionLookup addr e else .addressResolution e

/-- The end of `lookupIDinternal`, once it has the init actor. -/
def resolveIn (env : TreeEnv Act) (init : Act) (addr : Address) : Except TreeError ActorId :=
  match env.resolveAddress init addr with
  | .loadFailed => .error .loadingInit
  | .resolveFailed => .error (.resolve addr .table)
  | .notFound => .error (.resolve addr .actorNotFound)
  | .found i => .ok i

inductive FlushError
  /-- "tried to flush state tree with snapshots on the stack" -/
  | snapshots
  /-- `Delete` of a key that the HAMT does not have. -/
  | notFound (i : ActorId)

structure StateTree (Act : Type) where
  root : Table ActorId Act
  snaps : StateSnaps Act

/-- A tree as `LoadStateTree` returns it. -/
def loadStateTree (root : Table ActorId Act) : StateTree Act := ⟨root, newStateSnaps⟩

namespace StateTree

variable (env : TreeEnv Act) (st : StateTree Act) (addr : Address)

/-- `GetActor` of an ID address. -/
def getActorById (i : ActorId) : Except TreeError Act × StateTree Act :=
  match StateSnaps.findOp st.snaps.layers i with
  | some (.set act) => (.ok act, st)
  | some .delete => (.error .actorNotFound, st)
  | none =>
      match st.root.get? i with
      | none => (.error .actorNotFound, st)
      | some act => (.ok act, { st with snaps := st.snaps.setActor i act })

def lookupIDinternal : Except TreeError ActorId × StateTree Act :=
  match st.getActorById initId with
  | (.error e, st) => (.error (.gettingInit e), st)
  | (.ok init, st) => (resolveIn env init addr, st)

/-- `LookupID` of an address that is no ID address. -/
def lookupResolved : Except TreeError ActorId × StateTree Act :=
  match st.snaps.resolveAddress addr with
  | (some resa, snaps) => (.ok resa, { st with snaps })
  | (none, snaps) =>
      match lookupIDinternal env { st with snaps } addr with
      | (.error e, st) => (.error e, st)
      | (.ok a, st) => (.ok a, { st with snaps := st.snaps.cacheResolveAddress addr a })

def lookupID : Except TreeError ActorId × StateTree Act :=
  match addr with
  | .id i => (.ok i, st)
  | addr => st.lookupResolved env addr

def setActor (act : Act) : Except TreeError Unit × StateTree Act :=
  match st.lookupID env addr with
  | (.error e, st) => (.error (.idLookup e), st)
  | (.ok i, st) => (.ok (), { st with snaps := st.snaps.setActor i act })

def getActor : Except TreeError Act × StateTree Act :=
  if addr = .undef then (.error .getUndefined, st)
  else
    match st.lookupID env addr with
    | (.error e, st) => (.error (lookupFailed addr e), st)
    | (.ok i, st) => st.getActorById i

def deleteActor : Except TreeError Unit × StateTree Act :=
  if addr = .undef then (.error .deleteUndefined, st)
  else
    match st.lookupID env addr with
    | (.error e, st) => (.error (lookupFailed addr e), st)
    | (.ok i, st) =>
        match st.getActor env (.id i) with
        | (.error e, st) => (.error e, st)
        | (.ok _, st) => (.ok (), { st with snaps := st.snaps.deleteActor i })

/-- The entries of one layer in `ForEach`: the actors that are visited, and the actors
that have been seen. -/
def visitEntries : List (ActorId × StreeOp Act) → List ActorId → List (ActorId × Act) × List ActorId
  | [], seen => ([], seen)
  | (i, op) :: rest, seen =>
      if i ∈ seen then visitEntries rest seen
      else
        match visitEntries rest (i :: seen), op with
        | (visited, seen), .delete => (visited, seen)
        | (visited, seen), .set act => ((i, act) :: visited, seen)

def visitLayers (order : Arrangement) : List (StateSnapLayer Act) → List ActorId →
    List (ActorId × Act) × List ActorId
  | [], seen => ([], seen)
  | layer :: rest, seen =>
      match visitEntries (order.arrange layer.actors.pairs) seen with
      | (visited, seen) =>
          match visitLayers order rest seen with
          | (visited', seen) => (visited ++ visited', seen)

/-- `ForEach`: the actors that its function is called with, one after the other. -/
def forEach : List (ActorId × Act) :=
  match visitLayers env.order st.snaps.layers [] with
  | (visited, seen) => visited ++ (env.order.arrange st.root.pairs).filter (·.1 ∉ seen)

/-- The loop of `Flush` over the entries of the layer. -/
def writeEntries : List (ActorId × StreeOp Act) → Table ActorId Act →
    Except FlushError (Table ActorId Act)
  | [], root => .ok root
  | (i, .set act) :: rest, root => writeEntries rest (root.insert i act)
  | (i, .delete) :: rest, root =>
      match root.get? i with
      | none => .error (.notFound i)
      | some _ => writeEntries rest (root.erase i)

/-- `Flush`: the tree that is saved. -/
def flush : Except FlushError (Table ActorId Act) :=
  match st.snaps.below with
  | [] => writeEntries (env.order.arrange st.snaps.last.actors.pairs) st.root
  | _ :: _ => .error .snapshots

def snapshot : StateTree Act := { st with snaps := st.snaps.addLayer }

def clearSnapshot : Option (StateTree Act) :=
  st.snaps.mergeLastLayer.map fun snaps => { st with snaps }

def revert : StateTree Act := { st with snaps := st.snaps.dropAndAddLayer }

end StateTree

/-! ## Runs -/

inductive TreeOp (Act : Type)
  | setActor (addr : Address) (act : Act)
  | getActor (addr : Address)
  | deleteActor (addr : Address)
  | lookupID (addr : Address)
  | forEach
  | snapshot
  | clearSnapshot
  | revert

/-- What an operation returns, where `All` is what `ForEach` gives. -/
inductive TreeResult (Act All : Type)
  | done
  | failed (e : TreeError)
  | actor (act : Act)
  | id (i : ActorId)
  | all (actors : All)

namespace TreeResult

variable {All : Type}

def ofUnit : Except TreeError Unit → TreeResult Act All
  | .error e => .failed e
  | .ok () => .done

def ofActor : Except TreeError Act → TreeResult Act All
  | .error e => .failed e
  | .ok act => .actor act

def ofId : Except TreeError ActorId → TreeResult Act All
  | .error e => .failed e
  | .ok i => .id i

end TreeResult

/-- One operation; `none` where a layer is missing. -/
def treeStep (env : TreeEnv Act) (st : StateTree Act) :
    TreeOp Act → Option (TreeResult Act (List (ActorId × Act)) × StateTree Act)
  | .setActor addr act =>
      match st.setActor env addr act with
      | (r, st) => some (.ofUnit r, st)
  | .getActor addr =>
      match st.getActor env addr with
      | (r, st) => some (.ofActor r, st)
  | .deleteActor addr =>
      match st.deleteActor env addr with
      | (r, st) => some (.ofUnit r, st)
  | .lookupID addr =>
      match st.lookupID env addr with
      | (r, st) => some (.ofId r, st)
  | .forEach => some (.all (st.forEach env), st)
  | .snapshot => some (.done, st.snapshot)
  | .clearSnapshot => st.clearSnapshot.map fun st => (.done, st)
  | .revert => some (.done, st.revert)

/-- The results of some operations, and the tree after them. -/
def treeRun (env : TreeEnv Act) (st : StateTree Act) :
    List (TreeOp Act) → Option (List (TreeResult Act (List (ActorId × Act))) × StateTree Act)
  | [] => some ([], st)
  | op :: ops =>
      match treeStep env st op with
      | none => none
      | some (r, st) => (treeRun env st ops).map fun (rs, st) => (r :: rs, st)

/-! ## The reference -/

/-- A complete map of actors. -/
abbrev ActorMap (Act : Type) := ActorId → Option Act

/-- A stack of complete maps. The last one in `below` is the saved tree. -/
structure RefTree (Act : Type) where
  top : ActorMap Act
  below : List (ActorMap Act)

namespace RefTree

variable (env : TreeEnv Act) (m : ActorMap Act) (addr : Address)

/-- The address in the table of the map's init actor. -/
def lookupResolved : Except TreeError ActorId :=
  match m initId with
  | none => .error (.gettingInit .actorNotFound)
  | some init => resolveIn env init addr

def lookupID : Except TreeError ActorId :=
  match addr with
  | .id i => .ok i
  | addr => lookupResolved env m addr

def actorAt (i : ActorId) : Except TreeError Act :=
  match m i with
  | none => .error .actorNotFound
  | some act => .ok act

def getActor : Except TreeError Act :=
  if addr = .undef then .error .getUndefined
  else
    match lookupID env m addr with
    | .error e => .error (lookupFailed addr e)
    | .ok i => actorAt m i

def put (i : ActorId) (o : Option Act) : ActorMap Act :=
  fun j => if j = i then o else m j

def setActor (act : Act) : Except TreeError (ActorMap Act) :=
  match lookupID env m addr with
  | .error e => .error (.idLookup e)
  | .ok i => .ok (put m i (some act))

def deleteActor : Except TreeError (ActorMap Act) :=
  if addr = .undef then .error .deleteUndefined
  else
    match lookupID env m addr with
    | .error e => .error (lookupFailed addr e)
    | .ok i =>
        match actorAt m i with
        | .error e => .error e
        | .ok _ => .ok (put m i none)

/-- A change of the map at the top. -/
def write (ref : RefTree Act) (r : Except TreeError (ActorMap Act)) :
    TreeResult Act (ActorMap Act) × RefTree Act :=
  match r with
  | .error e => (.failed e, ref)
  | .ok m => (.done, { ref with top := m })

end RefTree

/-- One operation on the stack: a snapshot pushes a copy, clearing drops the map below
the top, reverting replaces the top by the map below. -/
def refStep (env : TreeEnv Act) (ref : RefTree Act) :
    TreeOp Act → Option (TreeResult Act (ActorMap Act) × RefTree Act)
  | .setActor addr act => some (ref.write (RefTree.setActor env ref.top addr act))
  | .getActor addr => some (.ofActor (RefTree.getActor env ref.top addr), ref)
  | .deleteActor addr => some (ref.write (RefTree.deleteActor env ref.top addr))
  | .lookupID addr => some (.ofId (RefTree.lookupID env ref.top addr), ref)
  | .forEach => some (.all ref.top, ref)
  | .snapshot => some (.done, { ref with below := ref.top :: ref.below })
  | .clearSnapshot =>
      match ref.below with
      | _ :: m :: rest => some (.done, { ref with below := m :: rest })
      | _ => none
  | .revert =>
      match ref.below with
      | m :: rest => some (.done, ⟨m, m :: rest⟩)
      | [] => none

/-- The stack at the start: the saved tree and a copy of it. -/
def loadRefTree (root : Table ActorId Act) : RefTree Act := ⟨root.get?, [root.get?]⟩

def refRun (env : TreeEnv Act) (ref : RefTree Act) :
    List (TreeOp Act) → Option (List (TreeResult Act (ActorMap Act)) × RefTree Act)
  | [] => some ([], ref)
  | op :: ops =>
      match refStep env ref op with
      | none => none
      | some (r, ref) => (refRun env ref ops).map fun (rs, ref) => (r :: rs, ref)

end OpenDsn.State
