import QuadIndex.Quad.Term

/-! Quads, their order, and the rule that says which of them can be stored. -/

namespace QuadIndex

/-- The largest length, in bytes, of a stored field: records keep lengths in 32 bits. -/
def maxFieldLength : Nat := 0xFFFFFFFF

def fitsField (length : Nat) : Bool := length ≤ maxFieldLength

/-- Keys end each component with two NUL characters. -/
def separator : String := "\x00\x00"

/-- The last code point. It sorts after every other character, so it closes a group of keys. -/
def boundary : Char := Char.ofNat 0x10FFFF

/-- Text with NUL or the boundary character cannot be part of a key. -/
def isReserved (value : String) : Bool :=
  value.toList.any fun c => c = '\x00' || c = boundary

structure Quad where
  subject : String
  predicate : String
  object : String
  context : String
  deriving DecidableEq, Inhabited

/-- What keeps a quad from being stored. -/
inductive QuadFault where
  | tooLong (term : Term)
  | boundary (term : Term)
  | nul (term : Term)
  deriving DecidableEq

def QuadFault.message : QuadFault → String
  | tooLong t => s!"{t.name} is longer than {maxFieldLength} bytes"
  | boundary t => s!"{t.name} contains the reserved boundary character"
  | nul t => s!"{t.name} contains NUL, which is reserved for key separators"

namespace Quad

def get (q : Quad) : Term → String
  | .subject => q.subject
  | .predicate => q.predicate
  | .object => q.object
  | .context => q.context

def tuple (q : Quad) (terms : List Term) : List String := terms.map q.get

theorem ext_get {p q : Quad} (h : ∀ t, p.get t = q.get t) : p = q := by
  cases p
  cases q
  have hs := h .subject
  have hp := h .predicate
  have ho := h .object
  have hc := h .context
  simp only [get] at hs hp ho hc
  simp [hs, hp, ho, hc]

def fieldFault? (t : Term) (value : String) : Option QuadFault :=
  if fitsField value.utf8ByteSize then
    if isReserved value then
      some (if boundary ∈ value.toList then .boundary t else .nul t)
    else none
  else some (.tooLong t)

/-- The first fault in canonical order. -/
def fault? (q : Quad) : Option QuadFault :=
  Term.all.findSome? fun t => fieldFault? t (q.get t)

theorem fieldFault?_eq_none_iff {t : Term} {value : String} :
    fieldFault? t value = none ↔
      fitsField value.utf8ByteSize = true ∧ isReserved value = false := by
  unfold fieldFault?
  cases fitsField value.utf8ByteSize <;> cases isReserved value <;> simp

theorem fault?_eq_none_iff {q : Quad} :
    q.fault? = none ↔
      ∀ t, fitsField (q.get t).utf8ByteSize = true ∧ isReserved (q.get t) = false := by
  rw [fault?, List.findSome?_eq_none_iff]
  constructor
  · intro h t
    exact fieldFault?_eq_none_iff.1 (h t t.mem_all)
  · intro h t _
    exact fieldFault?_eq_none_iff.2 (h t)

/-- Quads are ordered by their values in canonical order. -/
instance : LT Quad := ⟨fun p q => p.tuple Term.all < q.tuple Term.all⟩

instance (p q : Quad) : Decidable (p < q) :=
  inferInstanceAs (Decidable (p.tuple Term.all < q.tuple Term.all))

/-- Puts a quad into an ascending list, unless it is there already. -/
def insertAscending (q : Quad) : List Quad → List Quad
  | [] => [q]
  | p :: ps =>
    if q < p then q :: p :: ps
    else if q = p then p :: ps
    else p :: insertAscending q ps

/-- The distinct quads of a list in ascending order. -/
def ascending (qs : List Quad) : List Quad := qs.foldr insertAscending []

/-- The four values with tabs between them. -/
def line (q : Quad) : String := String.intercalate "\t" (q.tuple Term.all)

end Quad
end QuadIndex
