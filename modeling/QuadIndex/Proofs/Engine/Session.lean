import Mathlib.Data.Finset.Card
import QuadIndex.Proofs.Engine.Lawful

/-! # Sessions

Several cursors over one engine are polled and dropped in any order, with writes in between. What
the calls are answered tells which of the cursors are open, and a failing engine agrees with it. -/

namespace QuadIndex

/-! ## Calls and answers -/

/-- What is asked of an engine. Cursors are numbered in the order in which they are opened. -/
inductive EngineCall where
  | write (batch : Batch)
  | scan (range : KeyRange)
  | poll (number : Nat)
  | drop (number : Nat)
  deriving DecidableEq

inductive EngineAnswer where
  | written (result : Except EngineError Unit)
  | opened (number : Nat)
  | polled (number : Nat) (row : Option (Except EngineError Bytes))
  | dropped (number : Nat)
  deriving DecidableEq

/-- An engine and the cursors over it. The place of a cursor is empty once it is dropped. -/
structure Session (σ κ : Type) where
  engine : σ
  cursors : List (Option κ)

namespace Session

variable {σ κ γ : Type}

def start (s : σ) : Session σ κ := ⟨s, []⟩

def cursor? (s : Session σ κ) (number : Nat) : Option κ := s.cursors[number]?.join

def performAll (perform : γ → Session σ κ → List EngineAnswer × Session σ κ) :
    List γ → Session σ κ → List EngineAnswer × Session σ κ
  | [], s => ([], s)
  | c :: cs, s =>
    let (answers, s) := perform c s
    let (later, s) := performAll perform cs s
    (answers ++ later, s)

end Session

/-- Makes a call. There is no answer if the cursor is gone. -/
def EngineCall.perform {σ κ : Type} [Engine σ κ] :
    EngineCall → Session σ κ → List EngineAnswer × Session σ κ
  | write b, s =>
    let (result, engine) := Engine.write b s.engine
    ([.written result], { s with engine })
  | scan r, s =>
    let (cursor, engine) := Engine.scan r s.engine
    ([.opened s.cursors.length], ⟨engine, s.cursors ++ [some cursor]⟩)
  | poll number, s =>
    match s.cursor? number with
    | none => ([], s)
    | some c =>
      let (row, cursor, engine) := Engine.next c s.engine
      ([.polled number row], ⟨engine, s.cursors.set number (some cursor)⟩)
  | drop number, s =>
    match s.cursor? number with
    | none => ([], s)
    | some c => ([.dropped number], ⟨Engine.release c s.engine, s.cursors.set number none⟩)

namespace Session

variable {σ κ γ : Type}

def answers [Engine σ κ] (s : Session σ κ) (calls : List EngineCall) : List EngineAnswer :=
  (performAll EngineCall.perform calls s).1

def after [Engine σ κ] (s : Session σ κ) (calls : List EngineCall) : Session σ κ :=
  (performAll EngineCall.perform calls s).2

section Runs

variable {perform : γ → Session σ κ → List EngineAnswer × Session σ κ}

theorem performAll_append (cs ds : List γ) (s : Session σ κ) :
    performAll perform (cs ++ ds) s =
      ((performAll perform cs s).1 ++ (performAll perform ds (performAll perform cs s).2).1,
        (performAll perform ds (performAll perform cs s).2).2) := by
  induction cs generalizing s with
  | nil => rfl
  | cons c cs ih =>
      simp only [List.cons_append, performAll, ih, List.append_assoc]

/-- What every call keeps is kept by all of them. -/
theorem performAll_keeps {P : List EngineAnswer → Session σ κ → Prop}
    (hperform : ∀ c answers s, P answers s → P (answers ++ (perform c s).1) (perform c s).2)
    {answers : List EngineAnswer} {s : Session σ κ} (h : P answers s) (cs : List γ) :
    P (answers ++ (performAll perform cs s).1) (performAll perform cs s).2 := by
  induction cs generalizing answers s with
  | nil => rwa [performAll, List.append_nil]
  | cons c cs ih =>
      rw [performAll, ← List.append_assoc]
      exact ih (hperform c answers s h)

theorem performAll_singleton (c : γ) (s : Session σ κ) :
    performAll perform [c] s = perform c s :=
  Prod.ext (List.append_nil _) rfl

end Runs

theorem answers_append [Engine σ κ] (s : Session σ κ) (cs ds : List EngineCall) :
    s.answers (cs ++ ds) = s.answers cs ++ (s.after cs).answers ds :=
  congrArg Prod.fst (performAll_append cs ds s)

theorem after_append [Engine σ κ] (s : Session σ κ) (cs ds : List EngineCall) :
    s.after (cs ++ ds) = (s.after cs).after ds := by
  rw [after, performAll_append]
  rfl

theorem answers_singleton [Engine σ κ] (s : Session σ κ) (c : EngineCall) :
    s.answers [c] = (c.perform s).1 :=
  congrArg Prod.fst (performAll_singleton c s)

theorem after_singleton [Engine σ κ] (s : Session σ κ) (c : EngineCall) :
    s.after [c] = (c.perform s).2 :=
  congrArg Prod.snd (performAll_singleton c s)

/-! ## Places of cursors -/

variable {s : Session σ κ} {number n : Nat}

theorem lt_length_of_cursor? {c : κ} (h : s.cursor? number = some c) :
    number < s.cursors.length := by
  by_contra hn
  rw [cursor?, List.getElem?_eq_none (Nat.le_of_not_lt hn)] at h
  contradiction

/-- A place is filled anew or emptied, and the others stay. -/
theorem cursor?_set {c : κ} (h : s.cursor? number = some c) (engine : σ) (place : Option κ)
    (n : Nat) :
    (⟨engine, s.cursors.set number place⟩ : Session σ κ).cursor? n =
      if n = number then place else s.cursor? n := by
  rw [cursor?, List.getElem?_set, if_pos (lt_length_of_cursor? h)]
  by_cases hn : n = number
  · rw [if_pos hn.symm, if_pos hn]
    rfl
  · rw [if_neg (Ne.symm hn), if_neg hn]
    rfl

theorem cursor?_append (engine : σ) (cursors : List (Option κ)) (place : Option κ) (n : Nat) :
    (⟨engine, cursors ++ [place]⟩ : Session σ κ).cursor? n =
      if n = cursors.length then place else (⟨engine, cursors⟩ : Session σ κ).cursor? n := by
  rw [cursor?, cursor?]
  by_cases hn : n = cursors.length
  · rw [if_pos hn, hn, List.getElem?_concat_length]
    rfl
  · rw [if_neg hn]
    rcases Nat.lt_or_gt_of_ne hn with hlt | hgt
    · rw [List.getElem?_append_left hlt]
    · rw [List.getElem?_eq_none (Nat.le_of_lt hgt), List.getElem?_eq_none]
      rw [List.length_append]
      exact hgt

end Session

/-! ## Open cursors -/

namespace EngineAnswer

def opened? : EngineAnswer → Option Nat
  | opened number => some number
  | _ => none

/-- After this answer the cursor is not open: it has come to its end, has failed, or was dropped. -/
def ends (number : Nat) : EngineAnswer → Bool
  | polled n none | polled n (some (.error _)) | dropped n => n = number
  | _ => false

end EngineAnswer

/-- The cursors that were opened and have not come to their end, failed, or been dropped. -/
def openNumbers (answers : List EngineAnswer) : Finset Nat :=
  (answers.filterMap (·.opened?)).toFinset.filter fun n => ∀ a ∈ answers, a.ends n = false

section OpenNumbers

variable {answers : List EngineAnswer} {a : EngineAnswer} {n number : Nat}

theorem mem_openNumbers_iff :
    n ∈ openNumbers answers ↔ .opened n ∈ answers ∧ ∀ a ∈ answers, a.ends n = false := by
  have hopened : n ∈ answers.filterMap (·.opened?) ↔ .opened n ∈ answers := by
    rw [List.mem_filterMap]
    constructor
    · rintro ⟨a, ha, hn⟩
      cases a with
      | opened m => exact Option.some.inj hn ▸ ha
      | _ => contradiction
    · exact fun ha => ⟨_, ha, rfl⟩
  rw [openNumbers, Finset.mem_filter, List.mem_toFinset, hopened]

theorem mem_openNumbers_append_iff :
    n ∈ openNumbers (answers ++ [a]) ↔
      (n ∈ openNumbers answers ∨ a = .opened n ∧ ∀ a ∈ answers, a.ends n = false) ∧
        a.ends n = false := by
  simp only [mem_openNumbers_iff, List.mem_append, List.mem_singleton]
  grind

theorem openNumbers_append_opened (h : ∀ a ∈ answers, a.ends number = false) :
    openNumbers (answers ++ [.opened number]) = insert number (openNumbers answers) := by
  ext n
  have hends : (EngineAnswer.opened number).ends n = false := rfl
  rw [mem_openNumbers_append_iff, Finset.mem_insert, and_iff_left hends, or_comm,
    EngineAnswer.opened.injEq]
  refine or_congr_left ⟨fun hn => hn.1.symm, ?_⟩
  rintro rfl
  exact ⟨rfl, h⟩

/-- An answer that opens no cursor leaves those open that it does not end. -/
theorem openNumbers_append (h : a.opened? = none) :
    openNumbers (answers ++ [a]) = (openNumbers answers).filter fun n => a.ends n = false := by
  ext n
  rw [mem_openNumbers_append_iff, Finset.mem_filter]
  refine and_congr_left fun _ => or_iff_left ?_
  rintro ⟨rfl, -⟩
  contradiction

theorem openNumbers_append_of_ends (h : a.opened? = none)
    (hends : ∀ n, a.ends n = decide (number = n)) :
    openNumbers (answers ++ [a]) = (openNumbers answers).erase number := by
  ext n
  rw [openNumbers_append h, Finset.mem_filter, Finset.mem_erase, hends, decide_eq_false_iff_not,
    and_comm, ne_comm]

end OpenNumbers

end QuadIndex
