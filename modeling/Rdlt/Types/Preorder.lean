/-
  Rdlt.Types.Preorder

  A logical type as its nodes in preorder, the form it is stored in: a struct's
  node says how many fields follow it, and a list's is followed by its item's.
  Writing walks the type with a stack; reading recurses a level a node over one
  cursor, refused before it passes the nesting limit.
-/

import Rdlt.Lib.Checked
import Rdlt.Types.Lattice

namespace Rdlt.Types

open Lib

/-- How deep types and values nest, in levels. -/
def nestingDepth : Nat := 64

/-- A field's name and whether it may hold nulls; none for a type's root. -/
abbrev Named := Option (String × Bool)

/-! ## Writing -/

/-- A field as a node's naming and its type. -/
def below (field : String × Fields.Slot) : Named × LogicalType :=
  (some (field.1, field.2.2), field.2.1)

theorem Fields.sizeOf_toList : (fields : Fields) →
    (fields.toList.map fun field => sizeOf field.2.1).sum < sizeOf fields
  | .nil => by simp [toList]
  | .cons _ _ _ rest => by
    have := rest.sizeOf_toList
    simp [toList]
    omega

theorem Fields.ofList_toList : (fields : Fields) → ofList fields.toList = fields
  | .nil => rfl
  | .cons _ _ _ rest => by rw [toList, ofList, rest.ofList_toList]

theorem LogicalType.sizeOf_parts (t : LogicalType) :
    (t.parts.map fun field => sizeOf field.2.1).sum < sizeOf t := by
  cases t with
  | struct fields =>
    have := fields.sizeOf_toList
    simp only [parts, struct.sizeOf_spec]
    omega
  | _ => simp [parts]

/-- The nodes of the types `pending`, the last pushed first, in preorder. -/
def nodes : List (Named × LogicalType) → List (Named × LogicalType)
  | [] => []
  | (named, logical) :: pending => (named, logical) :: nodes (logical.parts.map below ++ pending)
termination_by pending => (pending.map fun node => sizeOf node.2).sum
decreasing_by
  have := logical.sizeOf_parts
  simp only [List.map_append, List.map_map, List.sum_append, List.map_cons, List.sum_cons]
  exact Nat.add_lt_add_right this _

theorem nodes_append (first second : List (Named × LogicalType)) :
    nodes (first ++ second) = nodes first ++ nodes second := by
  fun_induction nodes first with
  | case1 => rfl
  | case2 named logical pending ih =>
    rw [List.cons_append, nodes, ← List.append_assoc, ih, List.cons_append]

theorem nodes_cons (first : Named × LogicalType) (others : List (Named × LogicalType)) :
    nodes (first :: others) = nodes [first] ++ nodes others :=
  nodes_append [first] others

theorem nodes_one (named : Named) (t : LogicalType) :
    nodes [(named, t)] = (named, t) :: nodes (t.parts.map below) := by
  rw [nodes, List.append_nil]

/-! ## Reading -/

/-- What one node says of its type, without the types nested in it. -/
inductive Shape where
  | leaf (logical : LogicalType)
  | struct (count : Nat)
  | list
  deriving DecidableEq

def LogicalType.shape : LogicalType → Shape
  | .struct fields => .struct fields.toList.length
  | .list .. => .list
  | t => .leaf t

/-- Why nodes in preorder are no one type, or the error the reader of a node gave. -/
inductive Unread (E : Type) where
  | deep
  | ended
  | beyond
  | unnamed
  | fields (name : String)
  | node (error : E)
  deriving DecidableEq

variable {t : LogicalType} {fields : List (String × Fields.Slot)}

section

variable {N E : Type}

def fieldBy (next : List N → Except (Unread E) ((Named × LogicalType) × List N)) (nodes : List N) :
    Except (Unread E) ((String × Fields.Slot) × List N) :=
  next nodes >>= fun read =>
    match read with
    | ((some (name, nullable), logical), nodes) => .ok ((name, logical, nullable), nodes)
    | ((none, _), _) => .error .unnamed

/-- As many fields as `count` says, one after another. -/
def fieldsBy (next : List N → Except (Unread E) ((Named × LogicalType) × List N)) :
    Nat → List N → Except (Unread E) (List (String × Fields.Slot) × List N)
  | 0, nodes => .ok ([], nodes)
  | count + 1, nodes =>
    fieldBy next nodes >>= fun (field, nodes) =>
      fieldsBy next count nodes >>= fun (fields, nodes) => .ok (field :: fields, nodes)

/-- The first field whose name one before it has. -/
def duplicate (seen : List String) : List (String × Fields.Slot) → Option String
  | [] => none
  | field :: fields => if field.1 ∈ seen then some field.1 else duplicate (field.1 :: seen) fields

/-- Reads the field or type the next node of `nodes` begins, `levels` levels of nesting left: each
    field takes a node at least, so no more are read than are there. -/
def next (read : N → Except E (Named × Shape)) :
    Nat → List N → Except (Unread E) ((Named × LogicalType) × List N)
  | 0, _ => .error .deep
  | _ + 1, [] => .error .ended
  | levels + 1, node :: nodes =>
    (read node).mapError .node >>= fun (named, shape) =>
      match shape with
      | .leaf logical => .ok ((named, logical), nodes)
      | .struct count =>
        fieldsBy (next read levels) (min count nodes.length) nodes >>= fun (fields, nodes) =>
          if fields.length < count then .error .ended
          else
            match duplicate [] fields with
            | some name => .error (.fields name)
            | none => .ok ((named, .struct (Fields.ofList fields)), nodes)
      | .list =>
        fieldBy (next read levels) nodes >>= fun ((name, item, nullable), nodes) =>
          .ok ((named, .list name item nullable), nodes)

def whole (read : N → Except E (Named × Shape)) (nodes : List N) :
    Except (Unread E) (Named × LogicalType) :=
  next read nestingDepth nodes >>= fun (whole, left) =>
    if 0 < left.length then .error .beyond else .ok whole

/-! ## What is read is what was written -/

/-- A type nesting at most so many levels, the fields of each struct named apart. -/
inductive Fits : Nat → LogicalType → Prop where
  | nest {levels : Nat} {t : LogicalType} (apart : (t.parts.map Prod.fst).Nodup)
      (within : ∀ field ∈ t.parts, Fits levels field.2.1) : Fits (levels + 1) t

theorem Fits.mono {levels more : Nat} (h : Fits levels t) (hle : levels ≤ more) : Fits more t := by
  induction h generalizing more with
  | nest apart within ih =>
    obtain ⟨more, rfl⟩ := Nat.exists_eq_add_one_of_ne_zero (by omega : more ≠ 0)
    exact .nest apart fun field hfield => ih field hfield (by omega)

/-- Nodes as `write` writes them, which `read` reads so, and nothing else. -/
structure Writes (read : N → Except E (Named × Shape)) (write : Named × LogicalType → N) :
    Prop where
  read_write : ∀ named t, read (write (named, t)) = .ok (named, t.shape)
  leaf : ∀ {node named t}, read node = .ok (named, .leaf t) → t.shape = .leaf t
  eq_write : ∀ {node named t}, read node = .ok (named, t.shape) → node = write (named, t)

variable {read : N → Except E (Named × Shape)} {write : Named × LogicalType → N} {levels : Nat}
  {reader : List N → Except (Unread E) ((Named × LogicalType) × List N)}

theorem duplicate_eq_none {seen : List String} : duplicate seen fields = none
      ↔ (fields.map Prod.fst).Nodup ∧ ∀ field ∈ fields, field.1 ∉ seen := by
  induction fields generalizing seen with
  | nil => simp [duplicate]
  | cons field fields ih =>
    rw [duplicate]
    split
    · simp_all
    · rw [ih]
      simp only [List.map_cons, List.nodup_cons, List.mem_cons, List.mem_map]
      grind

theorem length_le_nodes (pending : List (Named × LogicalType)) :
    pending.length ≤ (nodes pending).length := by
  fun_induction nodes pending with
  | case1 => simp
  | case2 named logical pending ih =>
    simp only [List.length_append, List.length_cons] at ih ⊢
    omega

theorem fieldsBy_nodes (rest : List N)
    (h : ∀ field ∈ fields, ∀ rest, reader ((nodes [below field]).map write ++ rest)
      = .ok (below field, rest)) :
    fieldsBy reader fields.length ((nodes (fields.map below)).map write ++ rest)
      = .ok (fields, rest) := by
  induction fields with
  | nil => simp [nodes, fieldsBy]
  | cons field fields ih =>
    obtain ⟨hfield, hfields⟩ := List.forall_mem_cons.mp h
    rw [List.map_cons, nodes_cons, List.map_append, List.append_assoc, List.length_cons,
      fieldsBy, fieldBy,
      hfield]
    simp only [ok_bind, below, ih hfields]

/-- A type's nodes are read as it, leaving what follows them. -/
theorem next_nodes (hwrites : Writes read write) (h : Fits levels t) (named : Named)
    (rest : List N) :
    next read levels ((nodes [(named, t)]).map write ++ rest) = .ok ((named, t), rest) := by
  induction h generalizing named rest with
  | @nest levels t apart within ih =>
    have hfields := fieldsBy_nodes rest fun field hfield => ih field hfield (below field).1
    rw [nodes_one, List.map_cons, List.cons_append, next, hwrites.read_write, Except.mapError,
      ok_bind]
    cases t with
    | struct fields =>
      have hlength := length_le_nodes (fields.toList.map below)
      have hread : min fields.toList.length ((nodes (fields.toList.map below)).map write
          ++ rest).length = fields.toList.length := by
        simp only [List.length_map, List.length_append] at hlength ⊢
        omega
      have hapart := duplicate_eq_none.mpr ⟨apart, fun _ _ => List.not_mem_nil⟩
      simp only [LogicalType.parts] at hfields hapart ⊢
      simp only [LogicalType.shape, hread, hfields, ok_bind, lt_irrefl, if_false, hapart,
        Fields.ofList_toList]
    | list name item nullable =>
      have hitem :=
        ih (name, item, nullable) (by simp [LogicalType.parts]) (some (name, nullable)) rest
      simp only [LogicalType.shape, LogicalType.parts, List.map_cons, List.map_nil, below, fieldBy,
        hitem, ok_bind]
    | _ => simp [LogicalType.shape, LogicalType.parts, nodes]

variable {ns rest : List N}

theorem fieldBy_ok {field : String × Fields.Slot} (h : fieldBy reader ns = .ok (field, rest)) :
    reader ns = .ok (below field, rest) := by
  obtain ⟨⟨⟨named, logical⟩, left⟩, hread, h⟩ := bind_eq_ok.mp h
  cases named with
  | none => cases h
  | some named =>
    cases h
    exact hread

theorem fieldsBy_ok {count : Nat}
    (hby : ∀ {ns named t rest}, reader ns = .ok ((named, t), rest) →
      ns = (nodes [(named, t)]).map write ++ rest ∧ Fits levels t)
    (h : fieldsBy reader count ns = .ok (fields, rest)) :
    fields.length = count ∧ ns = (nodes (fields.map below)).map write ++ rest ∧
      ∀ field ∈ fields, Fits levels field.2.1 := by
  induction count generalizing ns fields with
  | zero =>
    cases h
    simp [nodes]
  | succ count ih =>
    obtain ⟨⟨field, left⟩, hfield, h⟩ := bind_eq_ok.mp h
    obtain ⟨⟨others, left'⟩, hothers, h⟩ := bind_eq_ok.mp h
    cases h
    obtain ⟨rfl, hfits⟩ := hby (fieldBy_ok hfield)
    obtain ⟨rfl, rfl, hall⟩ := ih hothers
    refine ⟨rfl, ?_, List.forall_mem_cons.mpr ⟨hfits, hall⟩⟩
    rw [List.map_cons, nodes_cons (below field), List.map_append, List.append_assoc]
    rfl

/-- What is read as a type is the type's nodes, and it nests within the levels left. -/
theorem next_ok (hwrites : Writes read write) {named : Named}
    (h : next read levels ns = .ok ((named, t), rest)) :
    ns = (nodes [(named, t)]).map write ++ rest ∧ Fits levels t := by
  induction levels generalizing ns rest named t with
  | zero => cases h
  | succ levels ih =>
    cases ns with
    | nil => cases h
    | cons node ns =>
      obtain ⟨⟨name, shape⟩, hread, h⟩ := bind_eq_ok.mp h
      rw [mapError_eq_ok] at hread
      rw [nodes_one, List.map_cons, List.cons_append, List.cons_eq_cons]
      cases shape with
      | leaf logical =>
        cases h
        have hleaf := hwrites.leaf hread
        have hparts : t.parts = [] := by
          cases t <;> first | rfl | cases hleaf
        rw [hparts]
        refine ⟨⟨hwrites.eq_write (hleaf ▸ hread), by simp [nodes]⟩, .nest ?_ ?_⟩ <;> simp [hparts]
      | struct count =>
        obtain ⟨⟨fields, left⟩, hfields, hread'⟩ := bind_eq_ok.mp h
        obtain ⟨hcount, rfl, hfits⟩ := fieldsBy_ok ih hfields
        simp only at hread'
        split at hread'
        · cases hread'
        · split at hread'
          · cases hread'
          · rename_i hlength hapart
            cases hread'
            have hparts : (LogicalType.struct (Fields.ofList fields)).parts = fields :=
              Fields.toList_ofList fields
            rw [hparts]
            refine ⟨⟨hwrites.eq_write ?_, rfl⟩, .nest ?_ ?_⟩
            · rw [hread, LogicalType.shape, Fields.toList_ofList]
              congr
              omega
            · rw [hparts]
              exact (duplicate_eq_none.mp hapart).1
            · rwa [hparts]
      | list =>
        obtain ⟨⟨⟨name, item, nullable⟩, left⟩, hitem, h⟩ := bind_eq_ok.mp h
        cases h
        obtain ⟨rfl, hfits⟩ := ih (fieldBy_ok hitem)
        exact ⟨⟨hwrites.eq_write hread, rfl⟩, .nest (by simp [LogicalType.parts])
          (by simpa [LogicalType.parts] using hfits)⟩

end

/-! ## The stored form -/

/-- A node's type, without the types nested in it. -/
inductive Kind where
  | null
  | bool
  | int8
  | int16
  | int32
  | int64
  | float32
  | float64
  | decimal (digits : DecimalType)
  | utf8
  | binary
  | date
  | time (unit : TimeUnit)
  | timestamp (unit : TimeUnit) (zone : Option String)
  | duration (unit : TimeUnit)
  | uuid
  | json
  | struct (count : Nat)
  | list
  deriving DecidableEq

def Kind.of : LogicalType → Kind
  | .null => .null
  | .bool => .bool
  | .int8 => .int8
  | .int16 => .int16
  | .int32 => .int32
  | .int64 => .int64
  | .float32 => .float32
  | .float64 => .float64
  | .decimal digits => .decimal digits
  | .utf8 => .utf8
  | .binary => .binary
  | .date => .date
  | .time unit => .time unit
  | .timestamp unit zone => .timestamp unit zone
  | .duration unit => .duration unit
  | .uuid => .uuid
  | .json => .json
  | .struct fields => .struct fields.toList.length
  | .list .. => .list

def Kind.shape : Kind → Shape
  | .null => .leaf .null
  | .bool => .leaf .bool
  | .int8 => .leaf .int8
  | .int16 => .leaf .int16
  | .int32 => .leaf .int32
  | .int64 => .leaf .int64
  | .float32 => .leaf .float32
  | .float64 => .leaf .float64
  | .decimal digits => .leaf (.decimal digits)
  | .utf8 => .leaf .utf8
  | .binary => .leaf .binary
  | .date => .leaf .date
  | .time unit => .leaf (.time unit)
  | .timestamp unit zone => .leaf (.timestamp unit zone)
  | .duration unit => .leaf (.duration unit)
  | .uuid => .leaf .uuid
  | .json => .leaf .json
  | .struct count => .struct count
  | .list => .list

/-- One node of a stored type: the field's name and whether it may hold nulls, none for a type's
    root. -/
structure Node where
  name : Option String
  nullable : Option Bool
  kind : Kind
  deriving DecidableEq

/-- A stored node that gives a name or a nullability, but not both. -/
inductive HalfNamed where
  | halfNamed
  deriving DecidableEq

/-- The node's naming and shape, as the shared reader reads them. -/
def Node.read (node : Node) : Except HalfNamed (Named × Shape) :=
  match node.name, node.nullable with
  | some name, some nullable => .ok (some (name, nullable), node.kind.shape)
  | none, none => .ok (none, node.kind.shape)
  | _, _ => .error .halfNamed

def Node.of (node : Named × LogicalType) : Node :=
  ⟨node.1.map Prod.fst, node.1.map Prod.snd, .of node.2⟩

def serialized (root : Named) (t : LogicalType) : List Node := (nodes [(root, t)]).map Node.of

def deserialized (nodes : List Node) : Except (Unread HalfNamed) (Named × LogicalType) :=
  whole Node.read nodes

theorem Kind.shape_of (t : LogicalType) : (Kind.of t).shape = t.shape := by cases t <;> rfl

theorem Kind.eq_of_shape {kind : Kind} (h : kind.shape = t.shape) : kind = .of t := by
  cases kind <;> cases t <;> cases h <;> rfl

theorem Node.writes : Writes Node.read Node.of where
  read_write named t := by
    cases named <;> simp [Node.read, Node.of, Kind.shape_of]
  leaf {node named t} h := by
    obtain ⟨name, nullable, kind⟩ := node
    have hshape : kind.shape = .leaf t := by
      cases name <;> cases nullable <;> simp_all [Node.read]
    cases kind <;> cases hshape <;> rfl
  eq_write {node named t} h := by
    obtain ⟨name, nullable, kind⟩ := node
    cases name <;> cases nullable <;> simp [Node.read] at h
    all_goals
      obtain ⟨rfl, hshape⟩ := h
      simp [Node.of, Kind.eq_of_shape hshape]

theorem deserialized_ok {ns : List Node} {root : Named} (h : deserialized ns = .ok (root, t)) :
    ns = serialized root t ∧ Fits nestingDepth t := by
  obtain ⟨⟨⟨named, logical⟩, left⟩, hnext, hleft⟩ := bind_eq_ok.mp h
  obtain ⟨rfl, hfits⟩ := next_ok Node.writes hnext
  cases left with
  | nil =>
    cases hleft
    exact ⟨List.append_nil _, hfits⟩
  | cons node left => cases hleft

theorem serialized_append {root root' : Named} {t' : LogicalType} {more : List Node}
    {levels levels' : Nat} (h : Fits levels t) (h' : Fits levels' t')
    (heq : serialized root t ++ more = serialized root' t') :
    (root, t) = (root', t') ∧ more = [] := by
  have hread := next_nodes Node.writes (h.mono (le_max_left levels levels')) root more
  have hread' := next_nodes Node.writes (h'.mono (le_max_right levels levels')) root' []
  rw [List.append_nil] at hread'
  have := (congrArg (next Node.read (max levels levels')) heq).symm.trans hread
  simpa using (hread'.symm.trans this).symm

theorem exists_error {ns : List Node} (h : ∀ root t, deserialized ns ≠ .ok (root, t)) :
    ∃ error, deserialized ns = .error error := by
  cases hread : deserialized ns with
  | error error => exact ⟨error, rfl⟩
  | ok read => exact (h _ _ hread).elim

/-- A type within the nesting limit is read back from its nodes; nodes read as a type are the type's
    own, and it is within the limit; and the nodes of a type short of some, or with more after them,
    or of a type past the limit, are refused. -/
theorem types_survive_flat_form :
    (∀ root t, Fits nestingDepth t → deserialized (serialized root t) = .ok (root, t)) ∧
    (∀ ns root t, deserialized ns = .ok (root, t) → ns = serialized root t ∧ Fits nestingDepth t) ∧
    (∀ root t levels ns more, Fits levels t → ns ++ more = serialized root t → more ≠ [] →
      ∃ error, deserialized ns = .error error) ∧
    (∀ root t more, Fits nestingDepth t → more ≠ [] →
      deserialized (serialized root t ++ more) = .error .beyond) ∧
    ∀ root t levels, Fits levels t → ¬ Fits nestingDepth t →
      ∃ error, deserialized (serialized root t) = .error error := by
  have hwhole : ∀ root t more, Fits nestingDepth t → deserialized (serialized root t ++ more)
      = if 0 < more.length then .error .beyond else .ok (root, t) := fun root t more h => by
    rw [deserialized, whole, serialized, next_nodes Node.writes h root more]
    rfl
  refine ⟨fun root t h => ?_, fun ns root t h => deserialized_ok h, fun root t levels ns more h heq
    hmore => exists_error fun root' t' hread => ?_, fun root t more h hmore => ?_,
    fun root t levels h hdeep => exists_error fun root' t' hread => ?_⟩
  · simpa using hwhole root t [] h
  · obtain ⟨rfl, hfits⟩ := deserialized_ok hread
    exact hmore (serialized_append hfits h heq).2
  · rw [hwhole root t more h, if_pos (List.length_pos_iff.mpr hmore)]
  · obtain ⟨heq, hfits⟩ := deserialized_ok hread
    obtain ⟨hsame, -⟩ := serialized_append hfits h ((List.append_nil _).trans heq.symm)
    cases hsame
    exact hdeep hfits

end Rdlt.Types
