import Exodus.Library.FloatArith

/-!
# JSON values and the decoding of records

`Json` is the tree a JSON library hands to a program.  An object is an ordered
map, so its keys are strictly ascending, and an integer fits 64 bits:
`Json.WellFormed` says so of a whole tree.

`structFields` is how a derived record decoder takes a value apart: an object by
field name, with unknown names refused, or an array by position.  The combinators
after it read one field each.
-/

set_option autoImplicit false

namespace Exodus.Library

/-- A JSON value. -/
inductive Json where
  | null
  | bool (b : Bool)
  | int (i : ℤ)
  | float (f : FiniteFloat)
  | str (s : String)
  | arr (items : List Json)
  | obj (entries : List (String × Json))

namespace Json

/-- Induction over a value, with the hypothesis for all items and all member values. -/
@[elab_as_elim]
theorem induction {motive : Json → Prop} (null : motive .null) (bool : ∀ b, motive (.bool b))
    (int : ∀ i, motive (.int i)) (float : ∀ f, motive (.float f)) (str : ∀ s, motive (.str s))
    (arr : ∀ items, (∀ v ∈ items, motive v) → motive (.arr items))
    (obj : ∀ entries, (∀ e ∈ entries, motive e.2) → motive (.obj entries)) (v : Json) :
    motive v :=
  @Json.rec motive (fun items => ∀ v ∈ items, motive v)
    (fun entries => ∀ e ∈ entries, motive e.2) (fun e => motive e.2) null bool int float str arr obj
    (List.forall_mem_nil _) (fun _ _ hv hvs => List.forall_mem_cons.mpr ⟨hv, hvs⟩)
    (List.forall_mem_nil _) (fun _ _ he hes => List.forall_mem_cons.mpr ⟨he, hes⟩)
    (fun _ _ hv => hv) v

mutual

/-- Object keys strictly ascend and integers fit `i64` or `u64`, at every depth. -/
def WellFormed : Json → Prop
  | .int i => -2 ^ 63 ≤ i ∧ i < 2 ^ 64
  | .arr items => WellFormedItems items
  | .obj entries => (entries.map Prod.fst).Pairwise (· < ·) ∧ WellFormedEntries entries
  | _ => True

/-- Every item is well formed. -/
def WellFormedItems : List Json → Prop
  | [] => True
  | v :: vs => v.WellFormed ∧ WellFormedItems vs

/-- Every member value is well formed. -/
def WellFormedEntries : List (String × Json) → Prop
  | [] => True
  | (_, v) :: es => v.WellFormed ∧ WellFormedEntries es

end

/-- Items are well formed if each of them is. -/
theorem wellFormedItems_iff (items : List Json) :
    WellFormedItems items ↔ ∀ v ∈ items, v.WellFormed := by
  induction items with
  | nil => simp [WellFormedItems]
  | cons v vs ih => simp [WellFormedItems, ih]

/-- Members are well formed if each value is. -/
theorem wellFormedEntries_iff {entries : List (String × Json)} :
    WellFormedEntries entries ↔ ∀ e ∈ entries, e.2.WellFormed := by
  induction entries with
  | nil => simp [WellFormedEntries]
  | cons e es ih => simp [WellFormedEntries, ih]

/-- Items that are all made by one function. -/
theorem wellFormedItems_map {α : Type} (f : α → Json) (l : List α)
    (h : ∀ a, (f a).WellFormed) : WellFormedItems (l.map f) := by
  rw [wellFormedItems_iff]
  intro v hv
  obtain ⟨a, -, rfl⟩ := List.mem_map.mp hv
  exact h a

/-- The member of an object; other values have none. -/
def get (key : String) : Json → Option Json
  | .obj entries => entries.lookup key
  | _ => none

/-! ## Scalars -/

def asStr : Json → Option String
  | .str s => some s
  | _ => none

def asI64 : Json → Option Int64
  | .int i => if -2 ^ 63 ≤ i ∧ i < 2 ^ 63 then some (Int64.ofInt i) else none
  | _ => none

def asUsize : Json → Option UInt64
  | .int i => if 0 ≤ i ∧ i < 2 ^ 64 then some (UInt64.ofNat i.toNat) else none
  | _ => none

/-- A floating-point field also takes an integer, converted to the nearest double. -/
def asFloat : Json → Option FiniteFloat
  | .float f => some f
  | .int i => if h : (Float.ofInt i).isFinite = true then some ⟨Float.ofInt i, h⟩ else none
  | _ => none

def asList {α : Type} (decode : Json → Option α) : Json → Option (List α)
  | .arr items => items.mapM decode
  | _ => none

/-- A unit variant is its name, or an object with that name and a null. -/
def asVariant : Json → Option String
  | .str s => some s
  | .obj [(name, .null)] => some name
  | _ => none

/-- An `i64` is a well-formed number. -/
theorem int64_wellFormed (i : Int64) : (Json.int i.toInt).WellFormed := by
  have h1 := i.le_toInt
  have h2 := i.toInt_lt
  simp only [WellFormed]
  omega

/-- So is a `u64`. -/
theorem uint64_wellFormed (n : UInt64) : (Json.int n.toNat).WellFormed := by
  have h := n.toNat_lt
  simp only [WellFormed]
  omega

/-- A string is read back. -/
@[simp] theorem asStr_str (s : String) : asStr (.str s) = some s := rfl

/-- A double is read back. -/
@[simp] theorem asFloat_float (f : FiniteFloat) : asFloat (.float f) = some f := rfl

/-- An `i64` is read back. -/
@[simp] theorem asI64_toInt (i : Int64) : asI64 (.int i.toInt) = some i := by
  have h1 := i.le_toInt
  have h2 := i.toInt_lt
  have hr : -2 ^ 63 ≤ i.toInt ∧ i.toInt < 2 ^ 63 := ⟨h1, h2⟩
  simp only [asI64, hr, and_self, if_true, Int64.ofInt_toInt]

/-- A `usize` is read back. -/
@[simp] theorem asUsize_toNat (n : UInt64) : asUsize (.int n.toNat) = some n := by
  have h := n.toNat_lt
  have hr : (0 : ℤ) ≤ n.toNat ∧ (n.toNat : ℤ) < 2 ^ 64 := by omega
  simp only [asUsize, hr, and_self, if_true, Int.toNat_natCast, UInt64.ofNat_toNat]

/-- A list is read back if its items are. -/
theorem asList_map {α : Type} (encode : α → Json) (decode : Json → Option α)
    (h : ∀ a, decode (encode a) = some a) (l : List α) :
    asList decode (.arr (l.map encode)) = some l := by
  show (l.map encode).mapM decode = some l
  induction l with
  | nil => rfl
  | cons a l ih => simp [List.mapM_cons, h, ih]

/-! ## Records -/

/-- The values of the named fields, absent ones as `none`.  An object may name no
other field; an array gives the leading fields and may not be longer. -/
def structFields (names : List String) : Json → Option (List (Option Json))
  | .obj entries =>
    if entries.all fun e => names.contains e.1 then some (names.map fun n => entries.lookup n) else none
  | .arr items =>
    if items.length ≤ names.length then
      some (items.map some ++ List.replicate (names.length - items.length) none)
    else none
  | _ => none

/-- A field without a default. -/
def required {α : Type} (fields : List (Option Json)) (i : ℕ) (decode : Json → Option α) :
    Option α :=
  (fields[i]?.join).bind decode

/-- A field with a default. -/
def optional {α : Type} (fields : List (Option Json)) (i : ℕ) (default : α)
    (decode : Json → Option α) : Option α :=
  match fields[i]?.join with
  | none => some default
  | some v => decode v

end Json

end Exodus.Library
