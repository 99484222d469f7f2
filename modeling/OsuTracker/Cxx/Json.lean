import OsuTracker.Cxx.Floating

/-! # JSON values and their accessors

The value type and the accessors of a JSON library whose conversions throw: reading a number
accepts booleans and truncates, reading a text or a boolean accepts nothing else. A constant
`operator[]` requires its key to be present, the mutable one creates a null member. Objects are
association lists; assigning to a key keeps the position of an existing member, as in an
insertion-ordered object, so equal keys never repeat in a built object.
-/

namespace OsuTracker.Cxx

inductive Json where
  | null
  | bool (value : Bool)
  | int (value : ℤ)
  | float (value : Flt)
  | str (value : Str)
  | arr (elements : List Json)
  | obj (members : List (Str × Json))

/-- Assignment to a key of an association list. -/
def assign {β : Type*} (key : Str) (value : β) : List (Str × β) → List (Str × β)
  | [] => [(key, value)]
  | (other, old) :: rest => if other = key then (other, value) :: rest else (other, old) :: assign key value rest

section Assign

variable {β : Type*}

theorem mem_of_lookup {α : Type*} [BEq α] [LawfulBEq α] {key : α} {value : β} {members : List (α × β)}
    (found : members.lookup key = some value) : (key, value) ∈ members := by
  obtain ⟨before, after, rfl, _⟩ := List.lookup_eq_some_iff.mp found
  exact List.mem_append_right _ List.mem_cons_self

theorem lookup_assign_self (key : Str) (value : β) (members : List (Str × β)) :
    (assign key value members).lookup key = some value := by
  induction members with
  | nil => simp [assign]
  | cons member rest ih =>
    obtain ⟨other, old⟩ := member
    by_cases same : other = key
    · simp [assign, same]
    · have differs : (key == other) = false := by simpa using Ne.symm same
      simp only [assign, if_neg same, List.lookup_cons, differs, ih]

theorem assign_append {key : Str} (value : β) {members : List (Str × β)} (later : List (Str × β))
    (fresh : key ∉ members.map Prod.fst) : assign key value (members ++ later) = members ++ assign key value later := by
  induction members with
  | nil => rfl
  | cons member rest ih =>
    obtain ⟨other, old⟩ := member
    simp only [List.map_cons, List.mem_cons, not_or] at fresh
    rw [List.cons_append, assign, if_neg (Ne.symm fresh.1), ih fresh.2]
    rfl

theorem assign_of_not_mem {key : Str} (value : β) {members : List (Str × β)}
    (fresh : key ∉ members.map Prod.fst) : assign key value members = members ++ [(key, value)] := by
  simpa [assign] using assign_append value [] fresh

theorem nodup_assign (key : Str) (value : β) {members : List (Str × β)} (distinct : (members.map Prod.fst).Nodup) :
    ((assign key value members).map Prod.fst).Nodup := by
  by_cases present : key ∈ members.map Prod.fst
  · have same : (assign key value members).map Prod.fst = members.map Prod.fst := by
      clear distinct
      induction members with
      | nil => cases present
      | cons member rest ih =>
        by_cases here : member.1 = key
        · rw [assign, if_pos here, List.map_cons, List.map_cons]
        · have later := ih ((List.mem_cons.mp present).resolve_left (Ne.symm here))
          rw [assign, if_neg here, List.map_cons, List.map_cons, later]
    rwa [same]
  · rw [assign_of_not_mem value present, List.map_append, List.nodup_append]
    refine ⟨distinct, by simp, fun other listed last singleton same => ?_⟩
    rw [same, List.mem_singleton.mp singleton] at listed
    exact present listed

theorem lookup_of_not_mem {key : Str} {members : List (Str × β)} (fresh : key ∉ members.map Prod.fst) :
    members.lookup key = none := by
  rw [List.lookup_eq_none_iff]
  intro member present
  have differs : key ≠ member.1 := fun same => fresh (same ▸ List.mem_map_of_mem present)
  simpa using differs

/-- Assigning fresh distinct keys one after the other lists them in order. -/
theorem foldl_assign_of_nodup (members entries : List (Str × β))
    (distinct : (members.map Prod.fst ++ entries.map Prod.fst).Nodup) :
    entries.foldl (fun built entry => assign entry.1 entry.2 built) members = members ++ entries := by
  induction entries generalizing members with
  | nil => simp
  | cons entry rest ih =>
    have fresh : entry.1 ∉ members.map Prod.fst := by
      intro present
      exact (List.nodup_append.mp distinct).2.2 _ present _ (by simp) rfl
    rw [List.foldl_cons, assign_of_not_mem _ fresh, ih (members ++ [entry]), List.append_assoc]
    · rfl
    · simpa using distinct

/-- Renaming all keys by an injection renames the one looked up. -/
theorem lookup_map_key (rename : Str → Str) (distinct : Function.Injective rename) (key : Str)
    (members : List (Str × β)) :
    (members.map fun member => (rename member.1, member.2)).lookup (rename key) = members.lookup key := by
  induction members with
  | nil => rfl
  | cons member rest ih =>
    obtain ⟨name, value⟩ := member
    have same : (rename key == rename name) = (key == name) := by
      rw [Bool.eq_iff_iff, beq_iff_eq, beq_iff_eq, distinct.eq_iff]
    simp only [List.map_cons, List.lookup_cons, same, ih]

theorem lookup_of_mem {members : List (Str × β)} (distinct : (members.map Prod.fst).Nodup) {key : Str} {value : β}
    (present : (key, value) ∈ members) : members.lookup key = some value := by
  induction members with
  | nil => cases present
  | cons member rest ih =>
    obtain ⟨name, old⟩ := member
    obtain ⟨fresh, tail⟩ := List.nodup_cons.mp distinct
    rcases List.mem_cons.mp present with same | later
    · cases same
      simp
    · have differs : (key == name) = false := by
        rw [beq_eq_false_iff_ne]
        rintro rfl
        exact fresh (List.mem_map.mpr ⟨_, later, rfl⟩)
      simp only [List.lookup_cons, differs, ih tail later]

end Assign

namespace Json

def isObject : Json → Bool
  | obj _ => true
  | _ => false

/-- `find`, which is the end of the object when the key is missing or there is no object. -/
def find? (key : Str) : Json → Option Json
  | obj members => members.lookup key
  | _ => none

def contains (key : Str) (j : Json) : Bool := (j.find? key).isSome

/-- The mutable `operator[]` with a key: a missing member is created as null. -/
def index (key : Str) : Json → Except Exception Json
  | null => .ok null
  | obj members => .ok ((members.lookup key).getD null)
  | _ => .error (.json 305)

/-- The constant `operator[]` with a key, whose precondition is that the key is present. -/
def indexConst (key : Str) : Json → Except Exception Json
  | obj members =>
    match members.lookup key with
    | some j => .ok j
    | none => .error .assertion
  | _ => .error (.json 305)

/-- The mutable `operator[]` with a position: an array grows by nulls. -/
def indexNat (position : ℕ) : Json → Except Exception Json
  | null => .ok null
  | arr elements => .ok (elements[position]?.getD null)
  | _ => .error (.json 305)

def at_ (key : Str) : Json → Except Exception Json
  | obj members =>
    match members.lookup key with
    | some j => .ok j
    | none => .error (.json 403)
  | _ => .error (.json 304)

def getInt : Json → Except Exception Int32
  | int n => .ok (Int32.ofInt n)
  | float x => .ok x.toInt32
  | bool b => .ok (if b then 1 else 0)
  | _ => .error (.json 302)

def getLongLong : Json → Except Exception Int64
  | int n => .ok (Int64.ofInt n)
  | float x => .ok x.toInt64
  | bool b => .ok (if b then 1 else 0)
  | _ => .error (.json 302)

def getFloat : Json → Except Exception Flt
  | int n => .ok (Flt.ofInt binary32 n)
  | float x => .ok (x.convert binary32)
  | bool b => .ok (Flt.ofInt binary32 (if b then 1 else 0))
  | _ => .error (.json 302)

def getBool : Json → Except Exception Bool
  | bool b => .ok b
  | _ => .error (.json 302)

def getString : Json → Except Exception Str
  | str s => .ok s
  | _ => .error (.json 302)

/-- `value(key, default)` with the conversion of the default's type. -/
def value {α : Type} (convert : Json → Except Exception α) (key : Str) (default : α) :
    Json → Except Exception α
  | obj members =>
    match members.lookup key with
    | some j => convert j
    | none => .ok default
  | _ => .error (.json 306)

/-- What a range-based loop visits: elements, member values, or a primitive itself. -/
def items : Json → List Json
  | null => []
  | arr elements => elements
  | obj members => members.map Prod.snd
  | j => [j]

/-- `j[k₁][k₂]… = value` on a null or an object: objects are created along the path. -/
def setAt : List Str → Json → Json → Json
  | [], _, value => value
  | key :: path, obj members, value =>
    obj (assign key (setAt path ((members.lookup key).getD null) value) members)
  | key :: path, _, value => obj [(key, setAt path null value)]

/-- The bytes are a UTF-8 text, the only texts that `dump` writes. -/
def isUtf8 (s : Str) : Bool := ByteArray.validateUTF8 ⟨s.toArray⟩

private theorem utf8EncodeChar_ascii (c : UInt8) (ascii : c.toNat < 128) :
    String.utf8EncodeChar (Char.ofNat c.toNat) = [c] := by
  have all : ∀ n : Fin 128, String.utf8EncodeChar (Char.ofNat n.val) = [UInt8.ofNat n.val] := by
    decide +kernel
  simpa using all ⟨c.toNat, ascii⟩

theorem isUtf8_of_ascii {s : Str} (ascii : ∀ c ∈ s, c.toNat < 128) : isUtf8 s = true := by
  have encoded : s.flatMap (fun c => String.utf8EncodeChar (Char.ofNat c.toNat)) = s := by
    induction s with
    | nil => rfl
    | cons c rest ih =>
      have tail := ih fun other member => ascii other (List.mem_cons_of_mem _ member)
      rw [List.flatMap_cons, utf8EncodeChar_ascii c (ascii c List.mem_cons_self), tail]
      rfl
  rw [isUtf8, ByteArray.validateUTF8_eq_true_iff]
  refine ⟨s.map fun c => Char.ofNat c.toNat, ?_⟩
  rw [List.utf8Encode, List.flatMap_map, encoded]
  ext1
  simp

end Json

end OsuTracker.Cxx
