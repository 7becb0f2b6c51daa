import Sihd.Lib.Transition
import Sihd.Lib.UnorderedMap
import Sihd.Util.Named

/-!
# Nodes

A node has its children and its links in maps, and lists of their names beside the maps.
Resolving the links of a node adds children to it, and to the nodes that the paths of the
links lead through. An object that is deleted is in the world no more, and reading it is
a fault.
-/

namespace Sihd.Util.Node

open Str

structure ChildEntry (ι : Type) where
  name : List UInt8
  obj : ι
  ownership : Bool

/-- The containers of a node. -/
structure NodeState (ι : Type) where
  childrenKeys : List (List UInt8) := []
  childrenMap : UnorderedMap (List UInt8) (ChildEntry ι) := .empty
  linkKeys : List (List UInt8) := []
  linkMap : UnorderedMap (List UInt8) (List UInt8) := .empty

/-- A `Named`, which may be a node. -/
structure Object (ι : Type) where
  name : List UInt8
  parent : Option ι
  node : Option (NodeState ι)

/-- What is put in the containers of a node and taken out of them. -/
inductive Event (ι : Type) where
  | childAdded (n : ι) (name : List UInt8)
  | childRemoved (n : ι) (name : List UInt8)
  | childrenRemoved (n : ι)
  | linkAdded (n : ι) (link : List UInt8)
  | linkRemoved (n : ι) (link : List UInt8)

/-- The objects that are alive. The history says what the names of the containers should
be: it is written and not read. -/
structure World (ι : Type) where
  objects : ι → Option (Object ι)
  history : List (Event ι) := []

inductive Fault where
  /-- A deleted object is read or deleted. -/
  | dangling
  /-- An object is no node, which the types exclude. -/
  | notNode
  /-- `erase` of an end iterator. -/
  | eraseEnd
  /-- A throw in a destructor. -/
  | terminated
  | endless
  deriving DecidableEq

inductive Exception where
  | lengthError (what : String)
  | outOfRange
  deriving DecidableEq

/-- The virtual functions, and how many rounds are followed of what goes from object to
object. -/
structure Setting (ι : Type) where
  onAddChild : World ι → ι → List UInt8 → ι → Bool
  onCheckLink : World ι → ι → List UInt8 → ι → Bool
  bound : Nat

/-- What a member function does: the throws leave a world, the faults do not. -/
abbrev NodeM (ι : Type) := Program (World ι) Exception Fault

open Program

section Model

variable {ι : Type}

/-! ## The objects -/

section Read

variable (w : World ι)

def World.get (o : ι) : Except Fault (Object ι) :=
  match w.objects o with
  | none => .error .dangling
  | some obj => .ok obj

/-- The containers of a node that is alive. -/
def World.nodeAt (n : ι) : Option (NodeState ι) := (w.objects n).bind Object.node

def World.nodeOf (n : ι) : Except Fault (NodeState ι) := do
  let obj ← w.get n
  match obj.node with
  | none => .error .notNode
  | some s => .ok s

def NodeState.getChild (s : NodeState ι) (name : List UInt8) : Option ι :=
  (s.childrenMap.find name).map ChildEntry.obj

/-- The loop of `cfind_from` over the names. -/
def findNames : Option ι → Option (NodeState ι) → List (List UInt8) → Except Fault (Option ι)
  | child, _, [] => .ok child
  | child, parent, name :: names => do
      let parent ←
        match child with
        | some child => (w.get child).map Object.node
        | none => .ok parent
      match parent with
      | none => .ok none
      | some parent =>
          match parent.getChild name with
          | none => .ok none
          | some child => findNames (some child) (some parent) names

def cfindFrom (from? : Option ι) (path : List UInt8) : Except Fault (Option ι) :=
  findNames w from? none (split path [dot])

/-- The loop over the leading dots. -/
def climb (o : ι) : Option ι → List UInt8 → Except Fault (Option ι)
  | current, [] => .ok current
  | current, c :: path =>
      if c = dot then do
        let current ←
          match current with
          | none => .ok (some o)
          | some current => (w.get current).map Object.parent
        climb o current path
      else .ok current

/-- The loop of `croot`. -/
def rootFrom : Nat → ι → Except Fault ι
  | 0, _ => .error .endless
  | k + 1, o => do
      let obj ← w.get o
      match obj.parent with
      | none => .ok o
      | some parent => rootFrom k parent

def croot (bound : Nat) (o : ι) : Except Fault (Option ι) := do
  let obj ← w.get o
  match obj.parent with
  | none => .ok (obj.node.map fun _ => o)
  | some parent => (rootFrom w bound parent).map some

def cfind (bound : Nat) (o : ι) (path : List UInt8) : Except Fault (Option ι) := do
  if path.head? = some dot then cfindFrom w (← climb w o none path) path
  else if path.head? = some slash then cfindFrom w (← croot w bound o) (path.drop 1)
  else cfindFrom w (some o) path

end Read

variable [DecidableEq ι]

namespace World

variable (w : World ι)

def setObject (o : ι) (obj : Option (Object ι)) : World ι :=
  { w with objects := Function.update w.objects o obj }

/-- `set_parent` of an object without a parent. -/
def adopt (n child : ι) : Except Fault (World ι) := do
  let obj ← w.get child
  .ok (if obj.parent = none then w.setObject child (some { obj with parent := some n }) else w)

/-- A change of the containers of a node. -/
def change (n : ι) (f : NodeState ι → NodeState ι) (e : Event ι) : Except Fault (World ι) := do
  let obj ← w.get n
  match obj.node with
  | none => .error .notNode
  | some s =>
      let w := w.setObject n (some { obj with node := some (f s) })
      .ok { w with history := w.history ++ [e] }

end World

/-- `parent_path`, of which the first part is used: what is before the last dot. -/
def parentPath (path : List UInt8) : List UInt8 :=
  if path.contains dot then (path.rdropWhile (· ≠ dot)).dropLast else path

/-! ## Deletion -/

/-- The object of an entry is deleted where the node owns it. -/
def destroyOwned (destroy : ι → World ι → Except Fault (World ι)) (entry : ChildEntry ι)
    (w : World ι) : Except Fault (World ι) :=
  if entry.ownership then destroy entry.obj w else .ok w

/-- The loop of the destructor of a node over the names of its children. -/
def destroyEach (destroy : ι → World ι → Except Fault (World ι))
    (m : UnorderedMap (List UInt8) (ChildEntry ι)) :
    List (List UInt8) → World ι → Except Fault (World ι)
  | [], w => .ok w
  | name :: names, w =>
      match m.find name with
      | none => .error .terminated
      | some entry => do
          let w ← destroyOwned destroy entry w
          destroyEach destroy m names w

/-- `delete` of an object: a node deletes the children that it owns. -/
def destroy : Nat → ι → World ι → Except Fault (World ι)
  | 0, _, _ => .error .endless
  | k + 1, o, w => do
      let obj ← w.get o
      match obj.node with
      | none => .ok (w.setObject o none)
      | some s => destroyEach (destroy k) s.childrenMap s.childrenKeys (w.setObject o none)

variable (env : Setting ι)

/-- The full name of a node is logged: the names of its ancestors are read. -/
def logFullName (n : ι) : NodeM ι Unit :=
  reads fun w => (rootFrom w env.bound n).map fun _ => ()

/-! ## Children -/

def NodeState.insertChild (entry : ChildEntry ι) (s : NodeState ι) : NodeState ι :=
  { s with
    childrenMap := s.childrenMap.assign entry.name entry
    childrenKeys := s.childrenKeys ++ [entry.name] }

def NodeState.eraseChild (name : List UInt8) (s : NodeState ι) : NodeState ι :=
  { s with
    childrenKeys := s.childrenKeys.erase name
    childrenMap := s.childrenMap.erase name }

def NodeState.clearChildren (s : NodeState ι) : NodeState ι :=
  { s with childrenMap := .empty, childrenKeys := [] }

def addChild (n : ι) (name : List UInt8) (child : ι) (ownership : Bool) : NodeM ι Bool := do
  let s ← reads (·.nodeOf n)
  if (s.getChild name).isSome then
    logFullName env n
    return false
  else
    let doAdd ← reads fun w => .ok (env.onAddChild w n name child)
    if doAdd then
      changes fun w => do
        let w ← w.adopt n child
        w.change n (·.insertChild ⟨name, child, ownership⟩) (.childAdded n name)
      return true
    else return false

/-- `add_child` of an object under its own name. -/
def addNamed (n child : ι) (ownership : Bool) : NodeM ι Bool := do
  let obj ← reads (·.get child)
  addChild env n obj.name child ownership

/-- `_remove_child_entry`. -/
def removeChildEntry (n : ι) : Option (ChildEntry ι) → NodeM ι Bool
  | none => return false
  | some entry => do
      changes (destroyOwned (destroy env.bound) entry)
      changes (·.change n (·.eraseChild entry.name) (.childRemoved n entry.name))
      return true

def removeChild (n : ι) (name : List UInt8) : NodeM ι Bool := do
  let s ← reads (·.nodeOf n)
  removeChildEntry env n (s.childrenMap.find name)

/-- `remove_child` of an object by its own name. -/
def removeNamed (n child : ι) : NodeM ι Bool := do
  let obj ← reads (·.get child)
  removeChild env n obj.name

/-- The loop of `remove_children`. -/
def deleteChildren (n : ι) : List (List UInt8) → NodeM ι Unit
  | [] => return
  | name :: names => do
      let s ← reads (·.nodeOf n)
      match s.childrenMap.find name with
      | none => throw .outOfRange
      | some entry =>
          changes (destroyOwned (destroy env.bound) entry)
          deleteChildren n names

def removeChildren (n : ι) : NodeM ι Unit := do
  let s ← reads (·.nodeOf n)
  deleteChildren env n s.childrenKeys
  changes (·.change n (·.clearChildren) (.childrenRemoved n))

/-! ## Links -/

def NodeState.insertLink (link path : List UInt8) (s : NodeState ι) : NodeState ι :=
  { s with
    linkMap := s.linkMap.emplace link path
    linkKeys := s.linkKeys ++ [link] }

def NodeState.eraseLink (link : List UInt8) (s : NodeState ι) : NodeState ι :=
  { s with
    linkKeys := s.linkKeys.erase link
    linkMap := s.linkMap.erase link }

def addLink (n : ι) (link path : List UInt8) : NodeM ι Bool := do
  let s ← reads (·.nodeOf n)
  if link ∈ s.linkMap.keys then
    logFullName env n
    return false
  else
    changes (·.change n (·.insertLink link path) (.linkAdded n link))
    return true

/-- `remove_link`: where the link is not among the keys, what `find` gives is the end, and
is erased. -/
def removeLink (n : ι) (link : List UInt8) : NodeM ι Bool := do
  let s ← reads (·.nodeOf n)
  if link ∈ s.linkKeys then
    changes (·.change n (·.eraseLink link) (.linkRemoved n link))
    return link ∈ s.linkMap.keys
  else reads fun _ => .error .eraseEnd

/-- `resolve_link`: `deeper` is `resolve_links` one recursion further on, and is none at
the maximum. -/
def resolveLink (deeper : Option (ι → NodeM ι Bool)) (n : ι) (path : List UInt8) :
    NodeM ι (Option ι) := do
  let child ← reads (cfind · env.bound n path)
  if child.isSome then return child
  else
    match deeper with
    | none => throw (.lengthError "Maximum link recursion")
    | some deeper =>
        let named ← reads (cfind · env.bound n (parentPath path))
        match named with
        | none => return none
        | some named =>
            let obj ← reads (·.get named)
            if obj.node.isSome then
              let _ ← deeper named
              reads (cfind · env.bound n path)
            else return none

/-- The loop of `resolve_links`. -/
def resolveEach (deeper : Option (ι → NodeM ι Bool)) (n : ι) :
    Bool → List (List UInt8) → NodeM ι Bool
  | ret, [] => return ret
  | ret, link :: links => do
      let s ← reads (·.nodeOf n)
      match s.linkMap.find link with
      | none => throw .outOfRange
      | some path =>
          let child ← resolveLink env deeper n path
          match child with
          | none =>
              logFullName env n
              return false
          | some child =>
              let isChecked ← reads fun w => .ok (env.onCheckLink w n link child)
              if isChecked then
                let _ ← addChild env n link child false
                resolveEach deeper n ret links
              else resolveEach deeper n false links

/-- `resolve_links`, with how many recursions are left of `SIHD_NODE_MAX_LINK_RECURSION`. -/
def resolveLinksFrom : Nat → ι → NodeM ι Bool
  | 0, n => do
      let s ← reads (·.nodeOf n)
      resolveEach env none n true s.linkKeys
  | k + 1, n => do
      let s ← reads (·.nodeOf n)
      resolveEach env (some (resolveLinksFrom k)) n true s.linkKeys

def resolveLinks (n : ι) : NodeM ι Bool := resolveLinksFrom env 20 n

/-! ## Runs -/

inductive Op (ι : Type) where
  | addChild (n : ι) (name : List UInt8) (child : ι) (ownership : Bool)
  | addNamed (n child : ι) (ownership : Bool)
  | removeChild (n : ι) (name : List UInt8)
  | removeNamed (n child : ι)
  | removeChildren (n : ι)
  | addLink (n : ι) (link path : List UInt8)
  | removeLink (n : ι) (link : List UInt8)
  | resolveLinks (n : ι)

/-- A call, with `true` for what returns nothing. -/
def Op.run : Op ι → NodeM ι Bool
  | .addChild n name child ownership => Node.addChild env n name child ownership
  | .addNamed n child ownership => Node.addNamed env n child ownership
  | .removeChild n name => Node.removeChild env n name
  | .removeNamed n child => Node.removeNamed env n child
  | .removeChildren n => do
      Node.removeChildren env n
      return true
  | .addLink n link path => Node.addLink env n link path
  | .removeLink n link => Node.removeLink n link
  | .resolveLinks n => Node.resolveLinks env n

def step (w : World ι) (op : Op ι) : Option (World ι) :=
  match (op.run env).run.run w with
  | .ok (_, w') => some w'
  | .error _ => none

/-! ## Consistency -/

/-- The names of children after an event: they are in the order of their insertion. -/
def Event.onChildren (n : ι) (names : List (List UInt8)) : Event ι → List (List UInt8)
  | .childAdded o name => if o = n then names ++ [name] else names
  | .childRemoved o name => if o = n then names.erase name else names
  | .childrenRemoved o => if o = n then [] else names
  | .linkAdded _ _ => names
  | .linkRemoved _ _ => names

def Event.onLinks (n : ι) (links : List (List UInt8)) : Event ι → List (List UInt8)
  | .linkAdded o link => if o = n then links ++ [link] else links
  | .linkRemoved o link => if o = n then links.erase link else links
  | .childAdded _ _ => links
  | .childRemoved _ _ => links
  | .childrenRemoved _ => links

def childrenInOrder (history : List (Event ι)) (n : ι) : List (List UInt8) :=
  history.foldl (Event.onChildren n) []

def linksInOrder (history : List (Event ι)) (n : ι) : List (List UInt8) :=
  history.foldl (Event.onLinks n) []

/-- The lists have the keys of the maps in the order of their insertion. -/
structure NodeState.Consistent (history : List (Event ι)) (n : ι) (s : NodeState ι) : Prop where
  children : UnorderedMap.Indexed s.childrenKeys s.childrenMap
  childrenKeys_eq : s.childrenKeys = childrenInOrder history n
  name_eq : ∀ e ∈ s.childrenMap.entries, e.2.name = e.1
  links : UnorderedMap.Indexed s.linkKeys s.linkMap
  linkKeys_eq : s.linkKeys = linksInOrder history n

def World.Consistent (w : World ι) : Prop :=
  ∀ n s, w.nodeAt n = some s → s.Consistent w.history n

/-- A link is to be removed that is not there. -/
def Op.RemovesAbsentLink (w : World ι) : Op ι → Prop
  | .removeLink n link => ∃ s, w.nodeAt n = some s ∧ link ∉ s.linkMap.keys
  | _ => False

/-- A name is to be removed that is not there. -/
def Op.RemovesAbsent (w : World ι) : Op ι → Prop
  | .removeChild n name => ∃ s, w.nodeAt n = some s ∧ name ∉ s.childrenMap.keys
  | .removeNamed n child => ∃ s obj, w.nodeAt n = some s ∧ w.objects child = some obj ∧
      obj.name ∉ s.childrenMap.keys
  | .removeLink n link => ∃ s, w.nodeAt n = some s ∧ link ∉ s.linkMap.keys
  | _ => False

/-- A run keeps the indexes of the nodes consistent, and what removes an absent name
returns `false` and changes nothing. -/
def KeepsIndexes : World ι → List (Op ι) → Prop
  | w, [] => w.Consistent
  | w, op :: ops => w.Consistent ∧
      (op.RemovesAbsent w → (op.run env).run.run w = .ok (.ok false, w)) ∧
        ∀ w', step env w op = some w' → KeepsIndexes w' ops

/-- No step of a run removes an absent link. -/
def RemovesPresentLinks : World ι → List (Op ι) → Prop
  | _, [] => True
  | w, op :: ops => ¬ op.RemovesAbsentLink w ∧
      ∀ w', step env w op = some w' → RemovesPresentLinks w' ops

end Model

/-- Objects that are made and have not been put together yet. -/
structure FreshWorld (ι : Type) where
  world : World ι
  nodeAt_eq : ∀ n s, world.nodeAt n = some s → s = {}
  history_eq : world.history = []

/-! ## Changes of the world -/

section Change

variable {ι : Type} {w w' : World ι} {n o : ι}

theorem exists_of_bind_eq_ok {α β : Type} {x : Except Fault α} {f : α → Except Fault β} {b : β}
    (h : x >>= f = .ok b) : ∃ a, x = .ok a ∧ f a = .ok b := by
  cases x with
  | error fault => cases h
  | ok a => exact ⟨a, rfl, h⟩

theorem get_eq_ok_iff {obj : Object ι} : w.get o = .ok obj ↔ w.objects o = some obj := by
  rw [World.get]
  cases w.objects o <;> simp

theorem nodeOf_eq_ok_iff {s : NodeState ι} : w.nodeOf n = .ok s ↔ w.nodeAt n = some s := by
  rw [World.nodeOf, World.nodeAt, World.get]
  cases w.objects n with
  | none => exact iff_of_false nofun nofun
  | some obj => cases hnode : obj.node <;> simp [hnode, bind, Except.bind]

theorem getChild_isSome_iff {s : NodeState ι} {name : List UInt8} :
    (s.getChild name).isSome ↔ name ∈ s.childrenMap.keys := by
  rw [NodeState.getChild, Option.isSome_map, ← not_iff_not, ← UnorderedMap.find_eq_none_iff,
    Option.not_isSome_iff_eq_none]

/-- The nodes that are there were there, with the same containers. -/
structure World.Within (w' w : World ι) : Prop where
  history_eq : w'.history = w.history
  nodeAt_eq : ∀ n s, w'.nodeAt n = some s → w.nodeAt n = some s

theorem World.Within.refl (w : World ι) : w.Within w := ⟨rfl, fun _ _ h => h⟩

theorem World.Within.trans {w'' : World ι} (h : w''.Within w') (h' : w'.Within w) :
    w''.Within w :=
  ⟨h.history_eq.trans h'.history_eq, fun n s hs => h'.nodeAt_eq n s (h.nodeAt_eq n s hs)⟩

theorem destroyOwned_within {destroy : ι → World ι → Except Fault (World ι)}
    (hdestroy : ∀ o w w', destroy o w = .ok w' → w'.Within w) {entry : ChildEntry ι}
    (h : destroyOwned destroy entry w = .ok w') : w'.Within w := by
  rw [destroyOwned] at h
  split at h
  · exact hdestroy _ _ _ h
  · exact Except.ok.inj h ▸ .refl w

theorem destroyEach_within {destroy : ι → World ι → Except Fault (World ι)}
    (hdestroy : ∀ o w w', destroy o w = .ok w' → w'.Within w)
    {m : UnorderedMap (List UInt8) (ChildEntry ι)} {names : List (List UInt8)}
    (h : destroyEach destroy m names w = .ok w') : w'.Within w := by
  induction names generalizing w with
  | nil =>
    rw [destroyEach, Except.ok.injEq] at h
    exact h ▸ .refl w
  | cons name names ih =>
    rw [destroyEach] at h
    split at h
    · cases h
    · rename_i entry hfind
      obtain ⟨w₁, hentry, h⟩ := exists_of_bind_eq_ok h
      exact (ih h).trans (destroyOwned_within hdestroy hentry)

variable [DecidableEq ι]

theorem nodeAt_setObject_self (w : World ι) (o : ι) (obj : Option (Object ι)) :
    (w.setObject o obj).nodeAt o = obj.bind Object.node := by
  simp [World.nodeAt, World.setObject]

theorem nodeAt_setObject_of_ne (h : n ≠ o) (obj : Option (Object ι)) :
    (w.setObject o obj).nodeAt n = w.nodeAt n := by
  simp [World.nodeAt, World.setObject, h]

theorem within_delete (w : World ι) (o : ι) : (w.setObject o none).Within w := by
  refine ⟨rfl, fun n s hs => ?_⟩
  by_cases hn : n = o
  · rw [hn, nodeAt_setObject_self] at hs
    cases hs
  · rwa [nodeAt_setObject_of_ne hn] at hs

/-- Deletion leaves the containers of the others alone. -/
theorem destroy_within {k : Nat} (h : destroy k o w = .ok w') : w'.Within w := by
  induction k generalizing o w w' with
  | zero => cases h
  | succ k ih =>
    rw [destroy] at h
    obtain ⟨obj, -, h⟩ := exists_of_bind_eq_ok h
    split at h
    · exact Except.ok.inj h ▸ within_delete w o
    · exact (destroyEach_within (fun _ _ _ => ih) h).trans (within_delete w o)

theorem adopt_within {child : ι} (h : w.adopt n child = .ok w') : w'.Within w := by
  obtain ⟨obj, hobj, h⟩ := exists_of_bind_eq_ok h
  obtain rfl := Except.ok.inj h
  split
  · refine ⟨rfl, fun o s hs => ?_⟩
    by_cases ho : o = child
    · rw [ho, nodeAt_setObject_self] at hs
      rw [ho, World.nodeAt, get_eq_ok_iff.mp hobj]
      exact hs
    · rwa [nodeAt_setObject_of_ne ho] at hs
  · exact .refl w

/-- A change is of one node, and is in the history. -/
theorem change_spec {f : NodeState ι → NodeState ι} {e : Event ι}
    (h : w.change n f e = .ok w') : ∃ s, w.nodeAt n = some s ∧
      w'.nodeAt n = some (f s) ∧ w'.history = w.history ++ [e] ∧
        ∀ o, o ≠ n → w'.nodeAt o = w.nodeAt o := by
  obtain ⟨obj, hobj, h⟩ := exists_of_bind_eq_ok h
  split at h
  · cases h
  · rename_i s hnode
    obtain rfl := Except.ok.inj h
    refine ⟨s, ?_, nodeAt_setObject_self w n _, rfl, fun o ho => nodeAt_setObject_of_ne ho _⟩
    rw [World.nodeAt, get_eq_ok_iff.mp hobj]
    exact hnode

end Change

/-! ## Consistency is kept -/

section Consistency

variable {ι : Type} [DecidableEq ι] {w w' : World ι} {n o : ι} {s : NodeState ι}
  {history : List (Event ι)} {name : List UInt8}

theorem World.Consistent.of_within (h : w.Consistent) (hw : w'.Within w) : w'.Consistent := by
  intro n s hs
  rw [hw.history_eq]
  exact h n s (hw.nodeAt_eq n s hs)

/-- The node of an event. -/
def Event.node : Event ι → ι
  | .childAdded n _ | .childRemoved n _ | .childrenRemoved n | .linkAdded n _
  | .linkRemoved n _ => n

/-- An event says nothing about the other nodes. -/
theorem NodeState.Consistent.concat_of_ne (h : s.Consistent history o) {e : Event ι}
    (he : e.node ≠ o) : s.Consistent (history ++ [e]) o := by
  have hchildren : childrenInOrder (history ++ [e]) o = childrenInOrder history o := by
    rw [childrenInOrder, List.foldl_concat]
    cases e <;> simp_all [Event.onChildren, Event.node, childrenInOrder]
  have hlinks : linksInOrder (history ++ [e]) o = linksInOrder history o := by
    rw [linksInOrder, List.foldl_concat]
    cases e <;> simp_all [Event.onLinks, Event.node, linksInOrder]
  exact ⟨h.children, h.childrenKeys_eq.trans hchildren.symm, h.name_eq, h.links,
    h.linkKeys_eq.trans hlinks.symm⟩

/-- What keeps the containers of its node consistent keeps the world so. -/
theorem World.Consistent.change (h : w.Consistent) {f : NodeState ι → NodeState ι}
    {e : Event ι} (hrun : w.change n f e = .ok w') (he : e.node = n)
    (hf : ∀ s, w.nodeAt n = some s → s.Consistent w.history n →
      (f s).Consistent (w.history ++ [e]) n) : w'.Consistent := by
  obtain ⟨s, hs, hn, hhistory, hothers⟩ := change_spec hrun
  intro o s' hs'
  rw [hhistory]
  by_cases ho : o = n
  · subst ho
    rw [hn, Option.some.injEq] at hs'
    exact hs' ▸ hf s hs (h o s hs)
  · rw [hothers o ho] at hs'
    exact (h o s' hs').concat_of_ne (he ▸ Ne.symm ho)

namespace NodeState.Consistent

theorem insertChild (h : s.Consistent history n) (hname : name ∉ s.childrenMap.keys)
    (child : ι) (ownership : Bool) : (s.insertChild ⟨name, child, ownership⟩).Consistent
      (history ++ [.childAdded n name]) n := by
  have hkeys : name ∉ s.childrenKeys := fun hmem => hname ((h.children.mem_iff name).mp hmem)
  refine ⟨h.children.assign hkeys _, ?_, fun e he => ?_, h.links, ?_⟩
  · rw [childrenInOrder, List.foldl_concat]
    simp [Event.onChildren, NodeState.insertChild, h.childrenKeys_eq, childrenInOrder]
  · rcases UnorderedMap.mem_assign he with he | rfl
    · exact h.name_eq e he
    · rfl
  · rw [linksInOrder, List.foldl_concat]
    exact h.linkKeys_eq

theorem eraseChild (h : s.Consistent history n) (name : List UInt8) :
    (s.eraseChild name).Consistent (history ++ [.childRemoved n name]) n := by
  refine ⟨h.children.erase name, ?_, fun e he => h.name_eq e (List.mem_of_mem_filter he),
    h.links, ?_⟩
  · rw [childrenInOrder, List.foldl_concat]
    simp [Event.onChildren, NodeState.eraseChild, h.childrenKeys_eq, childrenInOrder]
  · rw [linksInOrder, List.foldl_concat]
    exact h.linkKeys_eq

theorem clearChildren (h : s.Consistent history n) :
    s.clearChildren.Consistent (history ++ [.childrenRemoved n]) n := by
  refine ⟨UnorderedMap.indexed_empty, ?_, nofun, h.links, ?_⟩
  · rw [childrenInOrder, List.foldl_concat]
    simp [Event.onChildren, NodeState.clearChildren]
  · rw [linksInOrder, List.foldl_concat]
    exact h.linkKeys_eq

theorem insertLink (h : s.Consistent history n) {link : List UInt8}
    (hlink : link ∉ s.linkMap.keys) (path : List UInt8) :
    (s.insertLink link path).Consistent (history ++ [.linkAdded n link]) n := by
  have hkeys : link ∉ s.linkKeys := fun hmem => hlink ((h.links.mem_iff link).mp hmem)
  refine ⟨h.children, ?_, h.name_eq, h.links.emplace hkeys path, ?_⟩
  · rw [childrenInOrder, List.foldl_concat]
    exact h.childrenKeys_eq
  · rw [linksInOrder, List.foldl_concat]
    simp [Event.onLinks, NodeState.insertLink, h.linkKeys_eq, linksInOrder]

theorem eraseLink (h : s.Consistent history n) (link : List UInt8) :
    (s.eraseLink link).Consistent (history ++ [.linkRemoved n link]) n := by
  refine ⟨h.children, ?_, h.name_eq, h.links.erase link, ?_⟩
  · rw [childrenInOrder, List.foldl_concat]
    exact h.childrenKeys_eq
  · rw [linksInOrder, List.foldl_concat]
    simp [Event.onLinks, NodeState.eraseLink, h.linkKeys_eq, linksInOrder]

end NodeState.Consistent

/-! ## The member functions -/

section Keeps

variable {env : Setting ι}

theorem logsFalse_keeps (n : ι) :
    (do logFullName env n; return false : NodeM ι Bool).Keeps World.Consistent :=
  (keeps_reads _).bind fun _ _ h => endsIn_pure h false

theorem addChild_keeps (n : ι) (name : List UInt8) (child : ι) (ownership : Bool) :
    (addChild env n name child ownership).Keeps World.Consistent := by
  intro w h
  refine endsIn_reads_bind fun s hs => ?_
  split
  · exact logsFalse_keeps n w h
  · rename_i hname
    refine endsIn_reads_bind fun doAdd _ => ?_
    split
    · refine EndsIn.bind (endsIn_changes fun w' hrun => ?_) fun _ _ h' => endsIn_pure h' true
      obtain ⟨w₁, hadopt, hrun⟩ := exists_of_bind_eq_ok hrun
      have hw₁ := adopt_within hadopt
      refine (h.of_within hw₁).change hrun rfl fun s' hs' hcons => ?_
      refine hcons.insertChild (fun hmem => hname (getChild_isSome_iff.mpr ?_)) child ownership
      have hsame := (nodeOf_eq_ok_iff.mp hs).symm.trans (hw₁.nodeAt_eq n s' hs')
      rw [Option.some.inj hsame]
      exact hmem
    · exact endsIn_pure h false

theorem addNamed_keeps (n child : ι) (ownership : Bool) :
    (addNamed env n child ownership).Keeps World.Consistent :=
  (keeps_reads _).bind fun obj => addChild_keeps n obj.name child ownership

/-- A change of a node that keeps it consistent. -/
theorem changes_keeps {f : NodeState ι → NodeState ι} {e : Event ι}
    (hf : ∀ history s, s.Consistent history e.node → (f s).Consistent (history ++ [e]) e.node) :
    (changes (·.change e.node f e) : NodeM ι Unit).Keeps World.Consistent :=
  fun w h => endsIn_changes fun _ hrun => h.change hrun rfl fun s _ => hf w.history s

theorem deletes_keeps (entry : ChildEntry ι) :
    (changes (destroyOwned (destroy env.bound) entry) : NodeM ι Unit).Keeps World.Consistent :=
  fun _ h => endsIn_changes fun _ hrun =>
    h.of_within (destroyOwned_within (fun _ _ _ => destroy_within) hrun)

theorem removeChild_keeps (n : ι) (name : List UInt8) :
    (removeChild env n name).Keeps World.Consistent := by
  refine (keeps_reads _).bind fun s => ?_
  cases s.childrenMap.find name with
  | none => exact fun _ h => endsIn_pure h false
  | some entry =>
    refine (deletes_keeps entry).bind fun _ => Keeps.bind ?_ fun _ _ h => endsIn_pure h true
    exact @changes_keeps _ _ _ (.childRemoved n entry.name) fun _ _ h => h.eraseChild entry.name

theorem removeNamed_keeps (n child : ι) : (removeNamed env n child).Keeps World.Consistent :=
  (keeps_reads _).bind fun obj => removeChild_keeps n obj.name

theorem deleteChildren_keeps (n : ι) (names : List (List UInt8)) :
    (deleteChildren env n names).Keeps World.Consistent := by
  induction names with
  | nil => exact fun _ h => endsIn_pure h ()
  | cons name names ih =>
    refine (keeps_reads _).bind fun s => ?_
    cases s.childrenMap.find name with
    | none => exact fun _ h => endsIn_throw h _
    | some entry => exact (deletes_keeps entry).bind fun _ => ih

theorem removeChildren_keeps (n : ι) : (removeChildren env n).Keeps World.Consistent := by
  refine (keeps_reads _).bind fun s => (deleteChildren_keeps n s.childrenKeys).bind fun _ => ?_
  exact @changes_keeps _ _ _ (.childrenRemoved n) fun _ _ h => h.clearChildren

theorem addLink_keeps (n : ι) (link path : List UInt8) :
    (addLink env n link path).Keeps World.Consistent := by
  intro w h
  refine endsIn_reads_bind fun s hs => ?_
  split
  · exact logsFalse_keeps n w h
  · rename_i hlink
    refine EndsIn.bind (endsIn_changes fun w' hrun => ?_) fun _ _ h' => endsIn_pure h' true
    refine h.change hrun rfl fun s' hs' hcons => hcons.insertLink ?_ path
    rw [Option.some.inj (hs'.symm.trans (nodeOf_eq_ok_iff.mp hs))]
    exact hlink

theorem removeLink_keeps (n : ι) (link : List UInt8) :
    (removeLink n link).Keeps World.Consistent := by
  refine (keeps_reads _).bind fun s => ?_
  split
  · refine Keeps.bind ?_ fun _ _ h => endsIn_pure h _
    exact @changes_keeps _ _ _ (.linkRemoved n link) fun _ _ h => h.eraseLink link
  · exact keeps_reads _

theorem resolveLink_keeps {deeper : Option (ι → NodeM ι Bool)}
    (hdeeper : ∀ f ∈ deeper, ∀ n, (f n).Keeps World.Consistent) (n : ι) (path : List UInt8) :
    (resolveLink env deeper n path).Keeps World.Consistent := by
  refine (keeps_reads _).bind fun child => ?_
  split
  · exact fun _ h => endsIn_pure h child
  · cases deeper with
    | none => exact fun _ h => endsIn_throw h _
    | some deeper =>
      refine (keeps_reads _).bind fun named => ?_
      cases named with
      | none => exact fun _ h => endsIn_pure h none
      | some named =>
        refine (keeps_reads _).bind fun obj => ?_
        split
        · exact (hdeeper deeper rfl named).bind fun _ => keeps_reads _
        · exact fun _ h => endsIn_pure h none

theorem resolveEach_keeps {deeper : Option (ι → NodeM ι Bool)}
    (hdeeper : ∀ f ∈ deeper, ∀ n, (f n).Keeps World.Consistent) (n : ι) (ret : Bool)
    (links : List (List UInt8)) :
    (resolveEach env deeper n ret links).Keeps World.Consistent := by
  induction links generalizing ret with
  | nil => exact fun _ h => endsIn_pure h ret
  | cons link links ih =>
    refine (keeps_reads _).bind fun s => ?_
    cases s.linkMap.find link with
    | none => exact fun _ h => endsIn_throw h _
    | some path =>
      refine (resolveLink_keeps hdeeper n path).bind fun child => ?_
      cases child with
      | none => exact logsFalse_keeps n
      | some child =>
        refine (keeps_reads _).bind fun isChecked => ?_
        split
        · exact (addChild_keeps n link child false).bind fun _ => ih ret
        · exact ih false

theorem resolveLinksFrom_keeps (k : Nat) (n : ι) :
    (resolveLinksFrom env k n).Keeps World.Consistent := by
  induction k generalizing n with
  | zero => exact (keeps_reads _).bind fun s => resolveEach_keeps nofun n true s.linkKeys
  | succ k ih =>
    refine (keeps_reads _).bind fun s => resolveEach_keeps (fun f hf => ?_) n true s.linkKeys
    obtain rfl := Option.some.inj hf
    exact ih

/-- Every call keeps the world consistent. -/
theorem run_keeps (op : Op ι) : (op.run env).Keeps World.Consistent := by
  cases op with
  | addChild n name child ownership => exact addChild_keeps n name child ownership
  | addNamed n child ownership => exact addNamed_keeps n child ownership
  | removeChild n name => exact removeChild_keeps n name
  | removeNamed n child => exact removeNamed_keeps n child
  | removeChildren n => exact (removeChildren_keeps n).bind fun _ _ h => endsIn_pure h true
  | addLink n link path => exact addLink_keeps n link path
  | removeLink n link => exact removeLink_keeps n link
  | resolveLinks n => exact resolveLinksFrom_keeps 20 n

theorem step_consistent (h : w.Consistent) {op : Op ι} (hstep : step env w op = some w') :
    w'.Consistent := by
  rw [step] at hstep
  split at hstep
  · rename_i r w₁ hrun
    obtain rfl := Option.some.inj hstep
    exact run_keeps op w h r w₁ hrun
  · cases hstep

/-! ## Absent names -/

theorem run_removeChild_absent (hs : w.nodeAt n = some s) (hname : name ∉ s.childrenMap.keys) :
    (removeChild env n name).run.run w = .ok (.ok false, w) := by
  refine (run_reads_bind (f := fun w : World ι => w.nodeOf n) (nodeOf_eq_ok_iff.mpr hs) _).trans ?_
  rw [UnorderedMap.find_eq_none_iff.mpr hname]
  rfl

/-- An absent link is not removed with a result. -/
theorem run_removeLink_absent (h : w.Consistent) (hs : w.nodeAt n = some s) {link : List UInt8}
    (hlink : link ∉ s.linkMap.keys) :
    (removeLink n link).run.run w = .error .eraseEnd := by
  have hkeys : link ∉ s.linkKeys := fun hmem => hlink (((h n s hs).links.mem_iff link).mp hmem)
  refine (run_reads_bind (f := fun w : World ι => w.nodeOf n) (nodeOf_eq_ok_iff.mpr hs) _).trans ?_
  rw [if_neg hkeys]
  rfl

/-- An absent name is removed with the result `false` and no change exactly when it is not
of a link. -/
theorem run_absent_iff (h : w.Consistent) (op : Op ι) :
    (op.RemovesAbsent w → (op.run env).run.run w = .ok (.ok false, w)) ↔
      ¬ op.RemovesAbsentLink w := by
  cases op with
  | removeLink n link =>
    constructor
    · rintro hfalse ⟨s, hs, hlink⟩
      have hrun := hfalse ⟨s, hs, hlink⟩
      cases (run_removeLink_absent h hs hlink).symm.trans hrun
    · exact fun hpresent habsent => absurd habsent hpresent
  | removeChild n name =>
    refine iff_of_true ?_ id
    rintro ⟨s, hs, hname⟩
    exact run_removeChild_absent hs hname
  | removeNamed n child =>
    refine iff_of_true ?_ id
    rintro ⟨s, obj, hs, hobj, hname⟩
    refine (run_reads_bind (f := fun w : World ι => w.get child) (get_eq_ok_iff.mpr hobj) _).trans ?_
    exact run_removeChild_absent hs hname
  | _ => exact iff_of_true False.elim id

/-- From a consistent world, the indexes are kept exactly when no absent link is removed. -/
theorem keepsIndexes_iff_of_consistent (h : w.Consistent) (ops : List (Op ι)) :
    KeepsIndexes env w ops ↔ RemovesPresentLinks env w ops := by
  induction ops generalizing w with
  | nil => exact iff_of_true h trivial
  | cons op ops ih =>
    rw [KeepsIndexes, RemovesPresentLinks, and_iff_right h, run_absent_iff h]
    exact and_congr_right fun _ => forall_congr' fun w' => forall_congr' fun hstep =>
      ih (step_consistent h hstep)

end Keeps

theorem FreshWorld.consistent (fresh : FreshWorld ι) : fresh.world.Consistent := by
  intro n s hs
  obtain rfl := fresh.nodeAt_eq n s hs
  rw [fresh.history_eq]
  exact ⟨UnorderedMap.indexed_empty, rfl, nofun, UnorderedMap.indexed_empty, rfl⟩

/-- A run of calls keeps the indexes of all nodes consistent, and removes absent names
with the result `false` and no change, exactly when it removes no absent link. -/
theorem keepsIndexes_iff (env : Setting ι) (fresh : FreshWorld ι) (ops : List (Op ι)) :
    KeepsIndexes env fresh.world ops ↔ RemovesPresentLinks env fresh.world ops :=
  keepsIndexes_iff_of_consistent fresh.consistent ops

end Consistency

/-- One node, with virtual functions that refuse nothing. -/
def acceptAll : Setting Unit where
  onAddChild _ _ _ _ := true
  onCheckLink _ _ _ _ := true
  bound := 1

def loneNode : FreshWorld Unit where
  world := { objects := fun _ => some ⟨[110], none, some {}⟩ }
  nodeAt_eq _ _ h := (Option.some.inj h).symm
  history_eq := rfl

/-- A node with no links, of which one is removed. -/
theorem not_keepsIndexes_removeLink :
    ¬ KeepsIndexes acceptAll loneNode.world [.removeLink () [108]] := by
  rintro ⟨-, habsent, -⟩
  have hrun := habsent ⟨{}, rfl, List.not_mem_nil⟩
  cases hrun

end Sihd.Util.Node
