import Idakit.Library.Delimited
import Idakit.Library.Matching
import Idakit.Types.Canonical.Subterms

/-!
The diff of two canonical types. Aggregates of one kind and tag are taken
apart member by member: members pair by name, then, among the rest, by a
bit offset that is unique on both sides; what stays unpaired was added or
removed. Enums are taken apart by constant name, pointers, arrays and
functions by their parts, and every other difference is one retype.

The code appends to one list of changes; the model returns the changes a
call appends.
-/

namespace Idakit.Types.Canonical

open Idakit.Library

abbrev Member := CanonicalMember CanonicalType

inductive ChangeKind
  | added (type : CanonicalType)
  | removed (type : CanonicalType)
  | retyped (left right : CanonicalType)
  | renamed (old : Text)
  | moved (src dst : ℕ)
  | bitfieldChanged (src dst : Option ℕ)
  | sizeChanged (left right : Option ℕ)
  | constantAdded (value : ℕ)
  | constantRemoved (value : ℕ)
  | constantChanged (left right : ℕ)
  deriving DecidableEq

structure Change where
  path : Text
  kind : ChangeKind
  deriving DecidableEq

def join (path name : Text) : Text :=
  if path.isEmpty then name else path ++ '.' :: name

/-- A member's path under its parent's, which is the parent's own for a
member without a name. -/
def pathIn (m : Member) (parent : Text) : Text :=
  if m.name.isEmpty then parent else join parent m.name

/-! ### Pairing members -/

/-- The pairs of two member lists, with whether they were paired across a
change of name, and the members of either side that have no partner. -/
structure Pairing where
  pairs : List (Member × Member × Bool)
  removed : List Member
  added : List Member

/-- Members pair by name, first come first served; members without a name
wait for the second pass. -/
def pairByName (lm rm : List Member) : Matching Member Member :=
  firstMatch (fun l r => !l.name.isEmpty && r.name == l.name) lm rm

/-- Members still without a partner pair by a bit offset that is unique among
them on both sides. A member without an offset has none to share. -/
def pairByOffset (lm rm : List Member) : Matching Member Member :=
  uniqueMatch CanonicalMember.bitOffset CanonicalMember.bitOffset lm rm

/-- Both passes. The code keeps `used` flags for the members of either side;
the members left over by a pass are those whose flag is not set. The second
pass lists its pairs in the order of their left members, as the code sorts
them. -/
def pairMembers (lm rm : List Member) : Pairing :=
  let byName := pairByName lm rm
  let byOffset := pairByOffset byName.left byName.right
  { pairs := (byName.pairs.map fun p => (p.1, p.2, false)) ++
      byOffset.pairs.map fun p => (p.1, p.2, true)
    removed := byOffset.left
    added := byOffset.right }

/-- Whether a member was added or removed, which moves its followers. -/
def Pairing.structural (p : Pairing) : Bool := !p.removed.isEmpty || !p.added.isEmpty

/-! ### The walk -/

def sizeChange (path : Text) (ls rs : Option ℕ) : List Change :=
  if ls = rs then [] else [⟨path, .sizeChanged ls rs⟩]

/-- The changes of a matched pair besides those of its types. A move is
reported only when nothing was inserted or removed to explain it. -/
def slotChanges (l r : Member) (parent : Text) (reportMove : Bool) : List Change :=
  (if l.bitfieldWidth = r.bitfieldWidth then []
    else [⟨pathIn r parent, .bitfieldChanged l.bitfieldWidth r.bitfieldWidth⟩]) ++
  if reportMove then
    match l.bitOffset, r.bitOffset with
    | some src, some dst => if src = dst then [] else [⟨pathIn r parent, .moved src dst⟩]
    | _, _ => []
  else []

def renameChange (l r : Member) (parent : Text) (renamed : Bool) : List Change :=
  if renamed && l.name != r.name then [⟨pathIn r parent, .renamed l.name⟩] else []

/-- The changes of a matched pair, `recur` being the walk of their types. -/
def diffAgainst (recur : CanonicalType → Text → CanonicalType → List Change) (l r : Member)
    (parent : Text) (reportMove : Bool) : List Change :=
  recur l.ty (pathIn r parent) r.ty ++ slotChanges l r parent reportMove

def diffMembers (recur : CanonicalType → Text → CanonicalType → List Change) (path : Text)
    (lm rm : List Member) : List Change :=
  let p := pairMembers lm rm
  (p.pairs.flatMap fun (l, r, renamed) =>
    renameChange l r path renamed ++ diffAgainst recur l r path (!p.structural)) ++
  (p.removed.map fun l => ⟨pathIn l path, .removed l.ty⟩) ++
  p.added.map fun r => ⟨pathIn r path, .added r.ty⟩

def diffConstants (path : Text) (lm rm : List (Text × ℕ)) : List Change :=
  (lm.flatMap fun (name, value) =>
    match rm.find? fun r => r.1 == name with
    | some (_, rv) =>
        if rv = value then [] else [⟨join path name, .constantChanged value rv⟩]
    | none => [⟨join path name, .constantRemoved value⟩]) ++
  rm.flatMap fun (name, value) =>
    if lm.any fun l => l.1 == name then [] else [⟨join path name, .constantAdded value⟩]

namespace CanonicalType

mutual

/-- The changes that turn the one type into the other, under `path`. -/
def diffInto (self : CanonicalType) (path : Text) (other : CanonicalType) : List Change :=
  if self = other then [] else
  match self, other with
  | .aggregate lt lk lm ls, .aggregate rt rk rm rs =>
      if lk = rk ∧ lt = rt then
        sizeChange path ls rs ++ diffMembers (diffMemberType lm) path lm rm
      else [⟨path, .retyped (.aggregate lt lk lm ls) (.aggregate rt rk rm rs)⟩]
  | .enum lt lu lm ls, .enum rt ru rm rs =>
      if lt = rt then
        diffInto lu (join path "underlying".toList) ru ++ sizeChange path ls rs ++
          diffConstants path lm rm
      else [⟨path, .retyped (.enum lt lu lm ls) (.enum rt ru rm rs)⟩]
  -- Wrappers are transparent while their own shape stays the same.
  | .ptr lp lw, .ptr rp rw =>
      if lw = rw then diffInto lp path rp else [⟨path, .retyped (.ptr lp lw) (.ptr rp rw)⟩]
  | .array le ll, .array re rl =>
      if ll = rl then diffInto le path re
      else [⟨path, .retyped (.array le ll) (.array re rl)⟩]
  | .function lret lp lv, .function rret rp rv =>
      if lv = rv ∧ lp.length = rp.length then
        diffInto lret (join path "return".toList) rret ++ diffParams path 0 lp rp
      else [⟨path, .retyped (.function lret lp lv) (.function rret rp rv)⟩]
  | self, other => [⟨path, .retyped self other⟩]
termination_by structural self

def diffMemberType (members : List Member) (self : CanonicalType) (path : Text)
    (other : CanonicalType) : List Change :=
  match members with
  | [] => []
  | ⟨_, _, _, ty⟩ :: members =>
      if ty = self then diffInto ty path other else diffMemberType members self path other
termination_by structural members

def diffParams (path : Text) (i : ℕ) (lp rp : List CanonicalType) : List Change :=
  match lp, rp with
  | a :: lp, b :: rp =>
      diffInto a (join path ("arg".toList ++ decimal i)) b ++ diffParams path (i + 1) lp rp
  | _, _ => []
termination_by structural lp

end

attribute [grind =] diffInto diffMemberType diffParams

end CanonicalType

/-! ### The diff and its accessors -/

structure TypeDiff where
  changes : List Change
  deriving DecidableEq

def CanonicalType.diff (self other : CanonicalType) : TypeDiff :=
  ⟨diffInto self [] other⟩

def ChangeKind.isAdded : ChangeKind → Bool
  | .added _ | .constantAdded _ => true
  | _ => false

def ChangeKind.isRemoved : ChangeKind → Bool
  | .removed _ | .constantRemoved _ => true
  | _ => false

def ChangeKind.isChanged : ChangeKind → Bool
  | .retyped _ _ | .renamed _ | .moved _ _ | .bitfieldChanged _ _ | .constantChanged _ _ => true
  | _ => false

/-- The two sizes of a size change at the root path. -/
def Change.rootSize (c : Change) : Option (Option ℕ × Option ℕ) :=
  match c.kind with
  | .sizeChanged left right => if c.path.isEmpty then some (left, right) else none
  | _ => none

namespace TypeDiff

def isEmpty (d : TypeDiff) : Bool := d.changes.isEmpty

def len (d : TypeDiff) : ℕ := d.changes.length

def added (d : TypeDiff) : ℕ := d.changes.countP fun c => c.kind.isAdded

def removed (d : TypeDiff) : ℕ := d.changes.countP fun c => c.kind.isRemoved

/-- How many kept slots changed in place. -/
def changed (d : TypeDiff) : ℕ := d.changes.countP fun c => c.kind.isChanged

/-- The aggregate's own sizes if they changed at the root. -/
def sizeChange (d : TypeDiff) : Option (Option ℕ × Option ℕ) :=
  d.changes.findSome? Change.rootSize

end TypeDiff

end Idakit.Types.Canonical
