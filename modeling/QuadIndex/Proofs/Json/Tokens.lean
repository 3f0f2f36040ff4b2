import QuadIndex.Json.Reading

/-! # The tokens of a value

A text of a value has the tokens of the value, with any blanks between them and any spelling of its
strings and numbers. From these tokens the draft of the value is read back. -/

namespace QuadIndex.Json

mutual

/-- The tokens that every text of a value has. -/
def tokens : Json → List Token
  | null => [.null]
  | bool b => [.bool b]
  | number n => [.number (some n)]
  | string s => [.string (some s)]
  | array items => .openArray :: itemTokens items
  | object members => .openObject :: memberTokens members

def itemTokens : List Json → List Token
  | [] => [.closeArray]
  | [v] => v.tokens ++ [.closeArray]
  | v :: w :: vs => v.tokens ++ .comma :: itemTokens (w :: vs)

def memberTokens : List (String × Json) → List Token
  | [] => [.closeObject]
  | [(k, v)] => .string (some k) :: .colon :: v.tokens ++ [.closeObject]
  | (k, v) :: m :: ms => .string (some k) :: .colon :: v.tokens ++ .comma :: memberTokens (m :: ms)

end

/-- The text spells the value. -/
def IsTextOf (text : String) (v : Json) : Prop := Token.scan text.toList = v.tokens

namespace Draft

/-- Goes on reading after a value. -/
def resume (d : Draft) (stack : List Frame) (ts : List Token) : Document :=
  match settle d stack with
  | some stack => build .commaOrClose stack ts
  | none => ⟨d, ts.isEmpty⟩

theorem build_of_step {e : Expecting} {stack stack' : List Frame} {t : Token} {d : Draft}
    (h : step e stack t = delivered d stack') (ts : List Token) :
    build e stack (t :: ts) = resume d stack' ts := by
  rw [build, h, delivered, resume]
  cases settle d stack' <;> rfl

theorem build_itemOrClose (done : List Draft) (stack : List Frame) (v : Json) (vs : List Json)
    (ts : List Token) :
    build .itemOrClose (.array done :: stack) (itemTokens (v :: vs) ++ ts) =
      build .value (.array done :: stack) (itemTokens (v :: vs) ++ ts) := by
  have hfirst (rest : List Token) : build .itemOrClose (.array done :: stack) (v.tokens ++ rest) =
      build .value (.array done :: stack) (v.tokens ++ rest) := by
    cases v <;> rfl
  cases vs with
  | nil =>
      rw [itemTokens, List.append_assoc]
      exact hfirst _
  | cons w vs =>
      rw [itemTokens, List.append_assoc]
      exact hfirst _

theorem build_keyOrClose (done : List (Option String × Draft)) (stack : List Frame)
    (m : String × Json) (ms : List (String × Json)) (ts : List Token) :
    build .keyOrClose (.object done :: stack) (memberTokens (m :: ms) ++ ts) =
      build .key (.object done :: stack) (memberTokens (m :: ms) ++ ts) := by
  cases ms <;> rfl

mutual

/-- The tokens of a value are read as its draft. -/
theorem build_tokens (stack : List Frame) (ts : List Token) (v : Json) :
    build .value stack (v.tokens ++ ts) = resume (ofValue v) stack ts := by
  cases v with
  | array items =>
      cases items with
      | nil =>
          have hclose : step .itemOrClose (.array [] :: stack) .closeArray =
              delivered (.array []) stack := rfl
          exact build_of_step hclose ts
      | cons v vs =>
          calc
            build .value stack ((Json.array (v :: vs)).tokens ++ ts) =
                build .itemOrClose (.array [] :: stack) (itemTokens (v :: vs) ++ ts) := rfl
            _ = build .value (.array [] :: stack) (itemTokens (v :: vs) ++ ts) :=
              build_itemOrClose [] stack v vs ts
            _ = resume (ofValue (.array (v :: vs))) stack ts := build_itemTokens [] stack ts v vs
  | object members =>
      cases members with
      | nil =>
          have hclose : step .keyOrClose (.object [] :: stack) .closeObject =
              delivered (.object []) stack := rfl
          exact build_of_step hclose ts
      | cons m ms =>
          calc
            build .value stack ((Json.object (m :: ms)).tokens ++ ts) =
                build .keyOrClose (.object [] :: stack) (memberTokens (m :: ms) ++ ts) := rfl
            _ = build .key (.object [] :: stack) (memberTokens (m :: ms) ++ ts) :=
              build_keyOrClose [] stack m ms ts
            _ = resume (ofValue (.object (m :: ms))) stack ts :=
              build_memberTokens [] stack ts m ms
  | _ => exact build_of_step rfl ts
termination_by sizeOf v

theorem build_itemTokens (done : List Draft) (stack : List Frame) (ts : List Token) (v : Json)
    (vs : List Json) :
    build .value (.array done :: stack) (itemTokens (v :: vs) ++ ts) =
      resume (.array (done.reverse ++ ofItems (v :: vs))) stack ts := by
  cases vs with
  | nil =>
      calc
        build .value (.array done :: stack) (itemTokens [v] ++ ts) =
            build .value (.array done :: stack) (v.tokens ++ .closeArray :: ts) := by
          rw [itemTokens, List.append_assoc, List.singleton_append]
        _ = build .commaOrClose (.array (ofValue v :: done) :: stack) (.closeArray :: ts) :=
          build_tokens _ _ v
        _ = resume (.array (ofValue v :: done).reverse) stack ts := build_of_step rfl ts
        _ = resume (.array (done.reverse ++ ofItems [v])) stack ts := by
          rw [List.reverse_cons]
          rfl
  | cons w vs =>
      calc
        build .value (.array done :: stack) (itemTokens (v :: w :: vs) ++ ts) =
            build .value (.array done :: stack)
              (v.tokens ++ .comma :: (itemTokens (w :: vs) ++ ts)) := by
          rw [itemTokens, List.append_assoc, List.cons_append]
        _ = build .commaOrClose (.array (ofValue v :: done) :: stack)
              (.comma :: (itemTokens (w :: vs) ++ ts)) := build_tokens _ _ v
        _ = build .value (.array (ofValue v :: done) :: stack) (itemTokens (w :: vs) ++ ts) := rfl
        _ = resume (.array ((ofValue v :: done).reverse ++ ofItems (w :: vs))) stack ts :=
          build_itemTokens _ stack ts w vs
        _ = resume (.array (done.reverse ++ ofItems (v :: w :: vs))) stack ts := by
          rw [List.reverse_cons, List.append_assoc]
          rfl
termination_by 1 + sizeOf v + sizeOf vs

theorem build_memberTokens (done : List (Option String × Draft)) (stack : List Frame)
    (ts : List Token) (m : String × Json) (ms : List (String × Json)) :
    build .key (.object done :: stack) (memberTokens (m :: ms) ++ ts) =
      resume (.object (done.reverse ++ ofMembers (m :: ms))) stack ts := by
  obtain ⟨k, v⟩ := m
  cases ms with
  | nil =>
      calc
        build .key (.object done :: stack) (memberTokens [(k, v)] ++ ts) =
            build .value (.member done (some k) :: stack) (v.tokens ++ [.closeObject] ++ ts) := rfl
        _ = build .value (.member done (some k) :: stack) (v.tokens ++ .closeObject :: ts) := by
          rw [List.append_assoc, List.singleton_append]
        _ = build .commaOrClose (.object ((some k, ofValue v) :: done) :: stack)
              (.closeObject :: ts) := build_tokens _ _ v
        _ = resume (.object ((some k, ofValue v) :: done).reverse) stack ts := build_of_step rfl ts
        _ = resume (.object (done.reverse ++ ofMembers [(k, v)])) stack ts := by
          rw [List.reverse_cons]
          rfl
  | cons m ms =>
      calc
        build .key (.object done :: stack) (memberTokens ((k, v) :: m :: ms) ++ ts) =
            build .value (.member done (some k) :: stack)
              (v.tokens ++ .comma :: memberTokens (m :: ms) ++ ts) := rfl
        _ = build .value (.member done (some k) :: stack)
              (v.tokens ++ .comma :: (memberTokens (m :: ms) ++ ts)) := by
          rw [List.append_assoc, List.cons_append]
        _ = build .commaOrClose (.object ((some k, ofValue v) :: done) :: stack)
              (.comma :: (memberTokens (m :: ms) ++ ts)) := build_tokens _ _ v
        _ = build .key (.object ((some k, ofValue v) :: done) :: stack)
              (memberTokens (m :: ms) ++ ts) := rfl
        _ = resume (.object (((some k, ofValue v) :: done).reverse ++ ofMembers (m :: ms)))
              stack ts := build_memberTokens _ stack ts m ms
        _ = resume (.object (done.reverse ++ ofMembers ((k, v) :: m :: ms))) stack ts := by
          rw [List.reverse_cons, List.append_assoc]
          rfl
termination_by 1 + sizeOf m + sizeOf ms

end

/-- The tokens of a value spell its draft, and nothing follows it. -/
theorem ofTokens_tokens (v : Json) : ofTokens v.tokens = ⟨ofValue v, true⟩ := by
  have h := build_tokens [] [] v
  rwa [List.append_nil] at h

end Draft

theorem IsTextOf.ofText_eq {text : String} {v : Json} (h : IsTextOf text v) :
    Draft.ofText text = ⟨.ofValue v, true⟩ := by
  rw [Draft.ofText, h, Draft.ofTokens_tokens]

/-- A reader of a text meets the draft of its value. -/
theorem IsTextOf.readText_eq {text : String} {v : Json} (h : IsTextOf text v) {α : Type}
    (reader : Draft → Reading α) : readText reader text = reader (.ofValue v) := by
  rw [readText, h.ofText_eq, Draft.Document.read]
  cases reader (.ofValue v) <;> rfl

end QuadIndex.Json
