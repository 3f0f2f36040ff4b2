import QuadIndex.Quad.Record

/-! Indexes: orders of the four places, and the keys that store quads in such an order. -/

namespace QuadIndex

inductive IndexFault where
  | emptyName
  | reservedName (name : String)
  | uncovered (name : String) (term : Term)
  | unknownCode (code : Char) (codes : String)
  | notFour (codes : String)
  deriving DecidableEq

def IndexFault.message : IndexFault → String
  | emptyName => "index name is empty"
  | reservedName name => s!"index name {Text.quoted name} contains a reserved key character"
  | uncovered name t => s!"index {name} does not cover {t.name}"
  | unknownCode c codes => s!"unknown term code {Text.quotedSingle c} in {Text.quoted codes}"
  | notFour codes => s!"index {Text.quoted codes} must name exactly four terms"

/-- An order of the four places under a name that can begin a key. -/
structure Index where
  name : String
  terms : List Term
  name_ne_empty : name ≠ ""
  name_free : isReserved name = false
  length_terms : terms.length = 4
  covers : ∀ t, t ∈ terms
  deriving DecidableEq

namespace Index

/-- The codes of an order, which name it. -/
def codes (terms : List Term) : String := String.ofList (terms.map Term.code)

def named (name : String) (terms : List Term) : Except IndexFault Index :=
  if hn : name = "" then .error .emptyName
  else if hr : isReserved name = true then .error (.reservedName name)
  else if hc : ∀ t ∈ Term.all, t ∈ terms then
    if hl : terms.length = 4 then
      .ok ⟨name, terms, hn, by simpa using hr, hl, fun t => hc t t.mem_all⟩
    else .error (.notFour name)
  else
    match Term.all.find? (· ∉ terms) with
    | some t => .error (.uncovered name t)
    | none => .error (.notFour name)

def ofTerms (terms : List Term) : Except IndexFault Index := named (codes terms) terms

/-- The places that letters stand for, all in reference to the whole text. -/
def readCodes (whole : String) : List Char → Except IndexFault (List Term)
  | [] => .ok []
  | c :: cs =>
    match Term.ofCode? c with
    | none => .error (.unknownCode c whole)
    | some t => do
      let ts ← readCodes whole cs
      return t :: ts

def ofCodes (text : String) : Except IndexFault Index := do
  let ts ← readCodes text text.toList
  if ts.length = 4 then ofTerms ts else throw (.notFour text)

/-- Text within a key, with the separator that ends it. -/
def component (text : String) : Bytes := Text.Utf8.encode text ++ Text.Utf8.encode separator

def keyStart (i : Index) : Bytes := component i.name

/-- The key of some leading components, with more text after them. -/
def boundKey (i : Index) (components : List String) (suffix : String) : Bytes :=
  i.keyStart ++ components.flatMap component ++ Text.Utf8.encode suffix

def tuple (i : Index) (q : Quad) : List String := q.tuple i.terms

def key (i : Index) (q : Quad) : Bytes := i.boundKey (i.tuple q) ""

/-- The positions of quads in a list, in the order of their keys; of equal keys the earlier. -/
def keyOrder (i : Index) (qs : List Quad) : List Nat :=
  ((qs.map i.key).zipIdx.mergeSort fun a b => a.1 ≤ b.1).map (·.2)

end Index
end QuadIndex
