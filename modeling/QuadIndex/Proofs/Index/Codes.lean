import Mathlib.Data.List.Forall2
import Mathlib.Data.List.Nodup
import Mathlib.Data.List.Perm.Subperm
import QuadIndex.Index.Registry
import QuadIndex.Proofs.Index.KeyOrder

/-! # Orders and the letters that spell them

An order is spelled by one letter for each of its places, in either case. Whatever the spelling, the
order has one name, and different orders have different names. -/

namespace QuadIndex

/-! ## Letters -/

namespace Text

theorem toNat_toUpper (c : Char) :
    c.toUpper.toNat = if 97 ≤ c.toNat ∧ c.toNat ≤ 122 then c.toNat - 32 else c.toNat := by
  have hrange : 'a'.val ≤ c.val ∧ c.val ≤ 'z'.val ↔ 97 ≤ c.toNat ∧ c.toNat ≤ 122 := by
    rw [UInt32.le_iff_toNat_le, UInt32.le_iff_toNat_le]
    rfl
  by_cases h : 97 ≤ c.toNat ∧ c.toNat ≤ 122
  · have hupper : c.toUpper.val = c.val + ('A'.val - 'a'.val) := by
      delta Char.toUpper
      rw [dif_pos (hrange.2 h)]
    -- 'A' comes before 'a', so what is added is their difference modulo 2^32
    have hshift : ('A'.val - 'a'.val).toNat = 2 ^ 32 - 32 := by decide
    rw [if_pos h, ← Char.toNat_val, hupper, UInt32.toNat_add, hshift, Char.toNat_val]
    omega
  · have hupper : c.toUpper = c := by
      delta Char.toUpper
      rw [dif_neg (mt hrange.1 h)]
    rw [if_neg h, hupper]

/-- The characters whose upper case is a given letter are the letter and its lower case. -/
theorem toUpper_eq_iff {c u l : Char} (hu : 65 ≤ u.toNat ∧ u.toNat ≤ 90)
    (hl : l.toNat = u.toNat + 32) : c.toUpper = u ↔ c = u ∨ c = l := by
  rw [← Char.toNat_inj, ← Char.toNat_inj, ← Char.toNat_inj, toNat_toUpper]
  split <;> omega

end Text

namespace Term

/-- The letters that stand for a place. -/
def letters : Term → List Char
  | subject => ['S', 's']
  | predicate => ['P', 'p']
  | object => ['O', 'o']
  | context => ['G', 'g', 'C', 'c']

theorem code_mem_letters (t : Term) : t.code ∈ t.letters := by
  cases t <;> decide

theorem code_injective : Function.Injective code := by
  intro t u h
  cases t <;> cases u <;> first | rfl | contradiction

theorem mem_letters_iff {c : Char} {t : Term} :
    c ∈ t.letters ↔ c.toUpper = t.code ∨ t = context ∧ c.toUpper = 'C' := by
  have hs := Text.toUpper_eq_iff (c := c) (u := 'S') (l := 's') (by decide) (by decide)
  have hp := Text.toUpper_eq_iff (c := c) (u := 'P') (l := 'p') (by decide) (by decide)
  have ho := Text.toUpper_eq_iff (c := c) (u := 'O') (l := 'o') (by decide) (by decide)
  have hg := Text.toUpper_eq_iff (c := c) (u := 'G') (l := 'g') (by decide) (by decide)
  have hc := Text.toUpper_eq_iff (c := c) (u := 'C') (l := 'c') (by decide) (by decide)
  cases t with
  | subject => simp [letters, code, hs]
  | predicate => simp [letters, code, hp]
  | object => simp [letters, code, ho]
  | context => simp [letters, code, hg, hc, or_assoc]

theorem ofCode?_eq_some_iff {c : Char} {t : Term} : ofCode? c = some t ↔ c ∈ t.letters := by
  rw [mem_letters_iff]
  unfold ofCode?
  split
  · next h => rw [h]; cases t <;> decide
  · next h => rw [h]; cases t <;> decide
  · next h => rw [h]; cases t <;> decide
  · next h => rw [h]; cases t <;> decide
  · next h => rw [h]; cases t <;> decide
  · next hs hp ho hg hc =>
    refine iff_of_false nofun ?_
    rintro (h | ⟨-, h⟩)
    · cases t with
      | subject => exact hs h
      | predicate => exact hp h
      | object => exact ho h
      | context => exact hg h
    · exact hc h

end Term

/-! ## Orders -/

/-- The text has one letter for each place, in the same sequence. -/
def Spells (text : String) (ts : List Term) : Prop :=
  List.Forall₂ (fun c t => c ∈ t.letters) text.toList ts

namespace Index

variable {ts : List Term} {i : Index} {name text : String}

theorem toList_codes (ts : List Term) : (codes ts).toList = ts.map Term.code :=
  String.toList_ofList

theorem spells_codes (ts : List Term) : Spells (codes ts) ts := by
  rw [Spells, toList_codes, List.forall₂_map_left_iff, List.forall₂_same]
  exact fun t _ => t.code_mem_letters

theorem codes_injective : Function.Injective codes := fun ts us h =>
  Term.code_injective.list_map (by rw [← toList_codes, h, toList_codes])

theorem isReserved_codes (ts : List Term) : isReserved (codes ts) = false := by
  have hcode : ∀ t : Term, t.code ≠ '\x00' ∧ t.code ≠ boundary := fun t => by
    cases t <;> decide
  rw [isReserved_eq_false_iff, toList_codes, List.mem_map, List.mem_map]
  exact ⟨fun ⟨t, _, ht⟩ => (hcode t).1 ht, fun ⟨t, _, ht⟩ => (hcode t).2 ht⟩

/-- The places of an index are the four places in some order. -/
theorem perm_all (i : Index) : i.terms.Perm Term.all := by
  have hsub : Term.all.Subperm i.terms :=
    List.Nodup.subperm (by decide) fun t _ => i.covers t
  exact (hsub.perm_of_length_le (Nat.le_of_eq i.length_terms)).symm

/-- An order of the four places, under the name that its codes make. -/
def ofOrder (ts : List Term) (h : ts.Perm Term.all) : Index where
  name := codes ts
  terms := ts
  name_ne_empty hname := by
    have hnil : ts.map Term.code = [] := by rw [← toList_codes, hname]; rfl
    rw [List.map_eq_nil_iff.1 hnil] at h
    exact absurd h.length_eq (by decide)
  name_free := isReserved_codes ts
  length_terms := h.length_eq
  covers t := h.mem_iff.2 t.mem_all

theorem named_eq_ok_iff : named name ts = .ok i ↔ i.name = name ∧ i.terms = ts := by
  constructor
  · intro h
    unfold named at h
    split at h
    · contradiction
    · split at h
      · contradiction
      · split at h
        · split at h
          · cases h
            exact ⟨rfl, rfl⟩
          · contradiction
        · split at h <;> contradiction
  · rintro ⟨rfl, rfl⟩
    rw [named, dif_neg i.name_ne_empty, dif_neg (by simp [i.name_free]),
      dif_pos fun t _ => i.covers t, dif_pos i.length_terms]

theorem readCodes_eq_ok_iff (whole : String) {cs : List Char} :
    readCodes whole cs = .ok ts ↔ List.Forall₂ (fun c t => c ∈ t.letters) cs ts := by
  induction cs generalizing ts with
  | nil => rw [readCodes, List.forall₂_nil_left_iff, Except.ok.injEq, eq_comm]
  | cons c cs ih =>
      rw [readCodes, List.forall₂_cons_left_iff]
      simp only [← ih]
      simp only [← Term.ofCode?_eq_some_iff]
      cases Term.ofCode? c with
      | none => simp
      | some t =>
          cases readCodes whole cs with
          | error f => simp [bind, Except.bind]
          | ok us => simp [bind, Except.bind, pure, Except.pure, eq_comm]

/-- Text spells one order at most. -/
theorem spells_unique : Relator.RightUnique Spells := fun text _ _ hts hus =>
  Except.ok.inj (((readCodes_eq_ok_iff text).2 hts).symm.trans ((readCodes_eq_ok_iff text).2 hus))

theorem ofCodes_eq_ok_iff :
    ofCodes text = .ok i ↔ Spells text i.terms ∧ i.name = codes i.terms := by
  rw [Spells, ← readCodes_eq_ok_iff text, ofCodes]
  cases readCodes text text.toList with
  | error f => simp [bind, Except.bind]
  | ok ts =>
      have hbind : (do
          let ts ← Except.ok ts
          if ts.length = 4 then ofTerms ts else throw (IndexFault.notFour text)) =
          if ts.length = 4 then named (codes ts) ts else .error (.notFour text) := rfl
      rw [hbind, Except.ok.injEq]
      split
      · next hl =>
        rw [named_eq_ok_iff, and_comm, eq_comm (a := ts)]
        exact and_congr_right fun hterms => by rw [hterms]
      · next hl =>
        refine iff_of_false nofun ?_
        rintro ⟨rfl, -⟩
        exact hl i.length_terms

end Index

/-! ## Registries -/

namespace Registry

variable {r r' : Registry} {is : List Index}

theorem ext_indexes (h : r.indexes = r'.indexes) : r = r' := by
  cases r
  cases h
  rfl

/-- The indexes of different orders, each under the name that its codes make. -/
def ofOrders (orders : List (List Term)) (h : ∀ ts ∈ orders, ts.Perm Term.all)
    (hne : orders ≠ []) (hdistinct : orders.Nodup) : Registry where
  indexes := orders.pmap Index.ofOrder h
  nonempty hnil := hne (List.pmap_eq_nil_iff.1 hnil)
  distinct := by
    rw [List.map_pmap]
    exact (List.pmap_eq_map h).symm ▸ hdistinct.map Index.codes_injective

/-- Indexes can be added if there is a registry with them at the end. -/
theorem registerAll_eq_ok_iff : r.registerAll is = .ok r' ↔ r'.indexes = r.indexes ++ is := by
  induction is generalizing r with
  | nil =>
      rw [registerAll, List.append_nil, Except.ok.injEq]
      exact ⟨fun h => congrArg indexes h.symm, fun h => ext_indexes h.symm⟩
  | cons i is ih =>
      rw [registerAll, register]
      split
      · next h =>
        obtain ⟨j, hj, hname⟩ := h
        refine iff_of_false nofun fun heq => ?_
        have hdistinct := r'.distinct
        rw [heq, List.map_append, List.nodup_append] at hdistinct
        exact hdistinct.2.2 _ (List.mem_map_of_mem hj) _ List.mem_cons_self hname
      · have hadded : (r.indexes ++ [i]) ++ is = r.indexes ++ i :: is := by simp
        rw [← hadded]
        exact ih

theorem ofList_eq_ok_iff : ofList is = .ok r ↔ r.indexes = is := by
  cases is with
  | nil => exact iff_of_false nofun r.nonempty
  | cons i is => exact registerAll_eq_ok_iff

end Registry

end QuadIndex
