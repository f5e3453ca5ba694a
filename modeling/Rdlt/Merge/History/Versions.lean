/-
  Rdlt.Merge.History.Versions

  A history table's versions, the rows they come from, and how a change acts on
  them.
-/

import Rdlt.Merge.Table

namespace Rdlt.Merge.History

/-- One version of a key, by the rows its values come from: the row holding its data, key and hash,
    and the row that published it, holding its sequence and deletion time, which is the same row or
    the delete of a version a soft delete kept. -/
structure Version where
  data : At
  opened : At
  began : Int
  /-- When it ends; none while it is open. -/
  ended : Option Int
  current : Bool
  /-- Whether the merge opened or closed it: a version it left is its published row whole. -/
  touched : Bool
  deriving DecidableEq, Repr

/-- A key's newest version's row, which guards a change stream's key, its current version, how many
    of the table's truncates it has met, and whether one of them opened its newest version. -/
structure Key where
  newest : At
  current : Option Nat
  /-- The latest instant the key's versions hold: when one began or ended. -/
  floor : Option Int
  met : Nat
  truncated : Bool
  deriving DecidableEq, Repr

/-- The least instant, at which a row that says no beginning begins. -/
def minInstant : Int := -2 ^ 63

/-- The sequences, hashes, validity and deletion times of the rows of the merge's sources. -/
structure Guards where
  seq : At → Bytes
  hash : At → Option Bytes
  /-- When a row begins. -/
  begins : At → Int
  /-- When a row ends, where it does. -/
  ends : At → Option Int
  /-- Where deletes are soft, whether a row deleted what it holds. -/
  times : Option (At → Bool)

def Guards.deleted (guards : Guards) (row : At) : Bool := guards.times.any fun times => times row

/-- A history table's versions, and a key of it being changed. -/
structure Versions where
  list : List Version
  key : Key

namespace Versions

section

variable (guards : Guards) (versions : Versions)

/-- When `row`, a change of the key that acts, begins: when it says, or the latest instant the key
    held before it, if that is later; which is then the key's latest. -/
def begun (row : At) : Versions × Int :=
  let said := guards.begins row
  let began := versions.key.floor.elim said fun floor => max floor said
  ({ versions with key := { versions.key with floor := some began } }, began)

def close (index : Nat) (ended : Int) : Versions :=
  { versions with
    list := versions.list.modify index fun version =>
      { version with ended := some ended, current := false, touched := true } }

/-- Publishes a current version of `data` that `opened` published as the key's, beginning at
    `began`. -/
def openAt (data opened : At) (began : Int) : Versions where
  list := versions.list ++
    [{ data, opened, began, ended := none, current := true, touched := true }]
  key := { versions.key with current := some versions.list.length, newest := opened }

/-- Applies the upsert `row` to the key: unless its hash is the current version's, which is not
    deleted, it closes that version and becomes the current one. -/
def upsert (row : At) : Versions :=
  match versions.key.current.bind fun index =>
      (versions.list[index]?).map fun version => (index, version) with
  | some (index, version) =>
    if !guards.deleted version.opened && guards.hash version.data == guards.hash row then versions
    else
      let (versions, began) := versions.begun guards row
      (versions.close index began).openAt row row began
  | none =>
    let (versions, began) := versions.begun guards row
    versions.openAt row row began

/-- Applies the delete `row` to the key's current version: closes it, and where deletes are soft,
    keeps its data in a deleted current version, unless it is deleted already. -/
def remove (row : At) : Versions :=
  match versions.key.current.bind fun index =>
      (versions.list[index]?).map fun version => (index, version) with
  | none => versions
  | some (index, version) =>
    if guards.times.isNone then
      let (versions, began) := versions.begun guards row
      let versions := versions.close index began
      { versions with key := { versions.key with current := none } }
    else if !guards.deleted version.opened then
      let (versions, began) := versions.begun guards row
      (versions.close index began).openAt version.data row began
    else versions

end

end Versions

/-- Whether a change at `seq` is past a key's newest version: at its sequence, only where a truncate
    opened that version, which the change is not before. -/
def pastNewest {σ : Type} [LinearOrder σ] (newest seq : σ) (truncated : Bool) : Bool :=
  match cmp newest seq with
  | .lt => true
  | .eq => truncated
  | .gt => false

/-- Applies to the key the truncates it has not met: the first sequenced past its current version
    does to it what a delete does, and those after it find it removed or deleted already. -/
def meet (guards : Guards) (truncates : List At) (versions : Versions) : Versions :=
  let pending := truncates.drop versions.key.met
  let met : Versions := { versions with key := { versions.key with met := truncates.length } }
  match versions.key.current.bind fun index => versions.list[index]? with
  | none => met
  | some version =>
    let first := partitionPoint
      (fun truncate => before (guards.seq truncate) (guards.seq version.opened)) pending
    match pending[first]? with
    | none => met
    | some truncate =>
      let removed := met.remove guards truncate
      { removed with key := { removed.key with truncated := true } }

end Rdlt.Merge.History
