import Mathlib.Tactic.SplitIfs
import QuadIndex.Proofs.Json.Tokens

/-! # The text that a value is written as

A written value is scanned back into its tokens. Only numbers need a delimiter to be scanned, so
values without numbers are scanned back whatever follows them. -/

namespace QuadIndex.Json

namespace Token

/-! ## Fuel -/

theorem readParts?_shorter {cs rest : List Char} {ps : List Part}
    (h : readParts? cs = some (ps, rest)) : rest.length < cs.length := by
  fun_induction readParts? cs generalizing ps rest with
  | case1 => contradiction
  | case2 cs =>
      obtain ⟨-, rfl⟩ := Prod.mk.inj (Option.some.inj h)
      exact Nat.lt_succ_self _
  | case3 a b c d cs ih =>
      simp only [Option.bind_eq_bind, Option.bind_eq_some_iff, Option.pure_def,
        Option.some.injEq, Prod.mk.injEq] at h
      obtain ⟨n, -, ⟨qs, tail⟩, htail, -, rfl⟩ := h
      have hlt := ih htail
      simp only [List.length_cons]
      omega
  | case4 e cs _ ih =>
      simp only [Option.bind_eq_bind, Option.bind_eq_some_iff, Option.pure_def,
        Option.some.injEq, Prod.mk.injEq] at h
      obtain ⟨n, -, ⟨qs, tail⟩, htail, -, rfl⟩ := h
      have hlt := ih htail
      simp only [List.length_cons]
      omega
  | case5 => contradiction
  | case6 c cs _ _ _ _ ih =>
      simp only [Option.bind_eq_bind, Option.bind_eq_some_iff, Option.pure_def,
        Option.some.injEq, Prod.mk.injEq] at h
      obtain ⟨⟨qs, tail⟩, htail, -, rfl⟩ := h
      have hlt := ih htail
      simp only [List.length_cons]
      omega

theorem readDigits?_shorter {cs ds rest : List Char} (h : readDigits? cs = some (ds, rest)) :
    rest.length < cs.length := by
  have hlen : (cs.takeWhile Char.isDigit).length + (cs.dropWhile Char.isDigit).length =
      cs.length := by
    rw [← List.length_append, List.takeWhile_append_dropWhile]
  rw [readDigits?] at h
  split at h
  · contradiction
  · next hne =>
    obtain ⟨rfl, rfl⟩ := Prod.mk.inj (Option.some.inj h)
    have hpos := List.length_pos_iff.2 hne
    omega

theorem readFraction?_le {cs rest : List Char} {f : Option (List Char)}
    (h : readFraction? cs = some (f, rest)) : rest.length ≤ cs.length := by
  rw [readFraction?.eq_def] at h
  split at h
  · next cs =>
    simp only [Option.bind_eq_bind, Option.bind_eq_some_iff, Option.pure_def,
      Option.some.injEq, Prod.mk.injEq] at h
    obtain ⟨⟨ds, tail⟩, htail, -, rfl⟩ := h
    exact Nat.le_succ_of_le (Nat.le_of_lt (readDigits?_shorter htail))
  · obtain ⟨-, rfl⟩ := Prod.mk.inj (Option.some.inj h)
    exact Nat.le_refl _

theorem readExponentDigits?_le {up : Bool} {cs rest : List Char} {e : Option (Bool × List Char)}
    (h : readExponentDigits? up cs = some (e, rest)) : rest.length ≤ cs.length := by
  simp only [readExponentDigits?, Option.bind_eq_bind, Option.bind_eq_some_iff, Option.pure_def,
    Option.some.injEq, Prod.mk.injEq] at h
  obtain ⟨⟨ds, tail⟩, htail, -, rfl⟩ := h
  exact Nat.le_of_lt (readDigits?_shorter htail)

theorem readExponent?_le {cs rest : List Char} {e : Option (Bool × List Char)}
    (h : readExponent? cs = some (e, rest)) : rest.length ≤ cs.length := by
  rw [readExponent?.eq_def] at h
  split at h
  · split at h
    · split at h
      all_goals
        have hle := readExponentDigits?_le h
        simp only [List.length_cons]
        omega
    · obtain ⟨-, rfl⟩ := Prod.mk.inj (Option.some.inj h)
      exact Nat.le_refl _
  · obtain ⟨-, rfl⟩ := Prod.mk.inj (Option.some.inj h)
    exact Nat.le_refl _

theorem readUnsigned?_shorter {negative : Bool} {cs rest : List Char} {n : Number.Spelling}
    (h : readUnsigned? negative cs = some (n, rest)) : rest.length < cs.length := by
  simp only [readUnsigned?, readWhole?, Option.bind_eq_bind, Option.bind_eq_some_iff,
    Option.pure_def, Option.ite_none_left_eq_some, Option.some.injEq, Prod.mk.injEq] at h
  obtain ⟨⟨whole, cs₁⟩, ⟨⟨ds, cs₀⟩, hwhole, -, -, rfl⟩, ⟨fraction, cs₂⟩, hfraction, ⟨exponent, cs₃⟩,
    hexponent, -, rfl⟩ := h
  calc
    cs₃.length ≤ cs₂.length := readExponent?_le hexponent
    _ ≤ cs₀.length := readFraction?_le hfraction
    _ < cs.length := readDigits?_shorter hwhole

theorem readNumber?_shorter {cs rest : List Char} {n : Number.Spelling}
    (h : readNumber? cs = some (n, rest)) : rest.length < cs.length := by
  rw [readNumber?.eq_def] at h
  split at h
  · exact Nat.lt_succ_of_lt (readUnsigned?_shorter h)
  · exact readUnsigned?_shorter h

theorem read?_shorter {cs rest : List Char} {t : Token} (h : read? cs = some (t, rest)) :
    rest.length < cs.length := by
  rw [read?.eq_def] at h
  split at h
  case h_10 cs =>
    rw [Option.map_eq_some_iff] at h
    obtain ⟨⟨ps, tail⟩, htail, hpair⟩ := h
    obtain ⟨-, rfl⟩ := Prod.mk.inj hpair
    exact Nat.lt_succ_of_lt (readParts?_shorter htail)
  case h_11 =>
    rw [Option.map_eq_some_iff] at h
    obtain ⟨⟨n, tail⟩, htail, hpair⟩ := h
    obtain ⟨-, rfl⟩ := Prod.mk.inj hpair
    exact readNumber?_shorter htail
  all_goals
    obtain ⟨-, rfl⟩ := Prod.mk.inj (Option.some.inj h)
    simp only [List.length_cons]
    omega

/-- Fuel for every character is enough. -/
theorem scanUpTo_eq_scanUpTo {m n : Nat} {cs : List Char} (hm : cs.length ≤ m)
    (hn : cs.length ≤ n) : scanUpTo m cs = scanUpTo n cs := by
  induction m generalizing n cs with
  | zero =>
      rw [List.length_eq_zero_iff.1 (Nat.le_zero.1 hm)]
      cases n <;> rfl
  | succ m ih =>
      cases cs with
      | nil => cases n <;> rfl
      | cons c cs =>
          cases n with
          | zero => contradiction
          | succ n =>
              have hm' : cs.length ≤ m := Nat.le_of_succ_le_succ hm
              have hn' : cs.length ≤ n := Nat.le_of_succ_le_succ hn
              rw [scanUpTo, scanUpTo]
              split
              · exact ih hm' hn'
              · split
                · rfl
                · next t rest ht =>
                  have hrest : rest.length ≤ cs.length := Nat.le_of_lt_succ (read?_shorter ht)
                  rw [ih (Nat.le_trans hrest hm') (Nat.le_trans hrest hn')]

/-- Scanning takes one token and goes on with what it leaves. -/
theorem scan_of_read? {c : Char} {cs rest : List Char} {t : Token} (hc : isSpace c = false)
    (h : read? (c :: cs) = some (t, rest)) : scan (c :: cs) = t :: scan rest := by
  have hrest : rest.length ≤ cs.length := Nat.le_of_lt_succ (read?_shorter h)
  rw [scan, List.length_cons, scanUpTo, if_neg (by simp [hc]), h]
  exact congrArg (t :: ·) (scanUpTo_eq_scanUpTo hrest (Nat.le_refl _))

/-! ## Strings -/

/-- Within a string, the spelling is read as one part, which stands for the character. -/
def Spells (spelling : List Char) (c : Char) : Prop :=
  ∃ p, (∀ cs, readParts? (spelling ++ cs) = (readParts? cs).map fun r => (p :: r.1, r.2)) ∧
    ∀ ps, joinParts (p :: ps) = (joinParts ps).map (c :: ·)

theorem spells_letter {e c : Char} (hu : e ≠ 'u') (he : escape? e = some c) :
    Spells ['\\', e] c := by
  refine ⟨.char c, fun cs => ?_, fun ps => rfl⟩
  rw [List.cons_append, List.singleton_append, readParts?, he]
  · cases readParts? cs <;> rfl
  · intro _ _ _ _ _ h
    exact absurd h hu

theorem hexUnit?_control :
    ∀ n < 0x20, hexUnit? '0' '0' (Nat.digitChar (n / 16)) (Nat.digitChar (n % 16)) = some n := by
  decide

theorem spells_control {c : Char} (h : c.toNat < 0x20) :
    Spells ['\\', 'u', '0', '0', Nat.digitChar (c.toNat / 16), Nat.digitChar (c.toNat % 16)] c := by
  refine ⟨.unit c.toNat, fun cs => ?_, fun ps => ?_⟩
  · simp only [List.cons_append, List.nil_append]
    rw [readParts?, hexUnit?_control c.toNat h]
    cases readParts? cs <;> rfl
  · have hplain : c.toNat < 0xD800 := by omega
    rw [joinParts.eq_def]
    simp only [if_pos (Or.inl hplain), Char.ofNat_toNat]

theorem spells_self {c : Char} (hquote : c ≠ '"') (hslash : c ≠ '\\') (h : ¬ c.toNat < 0x20) :
    Spells [c] c := by
  refine ⟨.char c, fun cs => ?_, fun ps => rfl⟩
  rw [List.singleton_append, readParts?, if_neg h]
  · cases readParts? cs <;> rfl
  · exact hquote
  · intro _ _ _ _ _ hc
    exact absurd hc hslash
  · intro _ _ hc
    exact absurd hc hslash

theorem escapedChar_spells (c : Char) : Spells (escapedChar c) c := by
  rw [escapedChar]
  split_ifs with hquote hslash hb hf hn hr ht hcontrol
  · subst hquote
    exact spells_letter (by decide) rfl
  · subst hslash
    exact spells_letter (by decide) rfl
  · subst hb
    exact spells_letter (by decide) rfl
  · subst hf
    exact spells_letter (by decide) rfl
  · subst hn
    exact spells_letter (by decide) rfl
  · subst hr
    exact spells_letter (by decide) rfl
  · subst ht
    exact spells_letter (by decide) rfl
  · exact spells_control hcontrol
  · exact spells_self hquote hslash hcontrol

theorem readParts?_written (cs rest : List Char) :
    ∃ ps, readParts? (cs.flatMap escapedChar ++ '"' :: rest) = some (ps, rest) ∧
      joinParts ps = some cs := by
  induction cs with
  | nil => exact ⟨[], rfl, rfl⟩
  | cons c cs ih =>
      obtain ⟨ps, hread, hjoin⟩ := ih
      obtain ⟨p, hp, hc⟩ := escapedChar_spells c
      refine ⟨p :: ps, ?_, ?_⟩
      · rw [List.flatMap_cons, List.append_assoc, hp, hread]
        rfl
      · rw [hc, hjoin]
        rfl

theorem scan_stringChars (s : String) (rest : List Char) :
    scan (stringChars s ++ rest) = .string (some s) :: scan rest := by
  obtain ⟨ps, hread, hjoin⟩ := readParts?_written s.toList rest
  have hchars : stringChars s ++ rest = '"' :: (s.toList.flatMap escapedChar ++ '"' :: rest) := by
    rw [stringChars, List.cons_append, List.cons_append, List.append_assoc, List.singleton_append]
  rw [hchars]
  refine scan_of_read? rfl ?_
  rw [read?, hread, Option.map_some, hjoin, Option.map_some, String.ofList_toList]

end Token

/-! ## Values -/

/-- No number occurs in the value. -/
inductive Numberless : Json → Prop
  | null : Numberless null
  | bool (b : Bool) : Numberless (bool b)
  | string (s : String) : Numberless (string s)
  | array {items : List Json} (h : ∀ v ∈ items, Numberless v) : Numberless (array items)
  | object {members : List (String × Json)} (h : ∀ m ∈ members, Numberless m.2) :
      Numberless (object members)

/-- The written value is scanned into its tokens, whatever follows. -/
def Scans (v : Json) : Prop :=
  ∀ rest, Token.scan (v.chars ++ rest) = v.tokens ++ Token.scan rest

theorem scan_itemChars {items : List Json} (h : ∀ v ∈ items, v.Scans) (rest : List Char) :
    Token.scan (itemChars items ++ rest) = itemTokens items ++ Token.scan rest := by
  induction items with
  | nil => exact Token.scan_of_read? rfl rfl
  | cons v vs ih =>
      have hv := h v List.mem_cons_self
      cases vs with
      | nil =>
          rw [itemChars, List.append_assoc, List.singleton_append, hv,
            Token.scan_of_read? rfl rfl, itemTokens, List.append_assoc, List.singleton_append]
      | cons w vs =>
          rw [itemChars, List.append_assoc, List.cons_append, hv, Token.scan_of_read? rfl rfl,
            ih fun u hu => h u (List.mem_cons_of_mem v hu), itemTokens, List.append_assoc,
            List.cons_append]

theorem scan_memberChars {members : List (String × Json)} (h : ∀ m ∈ members, m.2.Scans)
    (rest : List Char) :
    Token.scan (memberChars members ++ rest) = memberTokens members ++ Token.scan rest := by
  induction members with
  | nil => exact Token.scan_of_read? rfl rfl
  | cons m ms ih =>
      obtain ⟨k, v⟩ := m
      have hv : v.Scans := h (k, v) List.mem_cons_self
      have hkey (cs : List Char) : Token.scan (stringChars k ++ ':' :: v.chars ++ cs) =
          .string (some k) :: .colon :: v.tokens ++ Token.scan cs := by
        rw [List.append_assoc, List.cons_append, Token.scan_stringChars,
          Token.scan_of_read? rfl rfl, hv]
        rfl
      cases ms with
      | nil =>
          rw [memberChars, List.append_assoc, List.singleton_append, hkey,
            Token.scan_of_read? rfl rfl, memberTokens, List.append_assoc, List.singleton_append]
      | cons m ms =>
          rw [memberChars, List.append_assoc, List.cons_append, hkey, Token.scan_of_read? rfl rfl,
            ih fun u hu => h u (List.mem_cons_of_mem (k, v) hu), memberTokens, List.append_assoc]
          rfl

theorem Numberless.scans {v : Json} (h : v.Numberless) : v.Scans := by
  induction h with
  | null => exact fun rest => Token.scan_of_read? rfl rfl
  | bool b =>
      intro rest
      cases b <;> exact Token.scan_of_read? rfl rfl
  | string s => exact fun rest => Token.scan_stringChars s rest
  | array h ih =>
      intro rest
      rw [chars, List.cons_append, Token.scan_of_read? rfl rfl, scan_itemChars ih, tokens,
        List.cons_append]
  | object h ih =>
      intro rest
      rw [chars, List.cons_append, Token.scan_of_read? rfl rfl, scan_memberChars ih, tokens,
        List.cons_append]

/-- The written text of a value spells the value. -/
theorem Numberless.isTextOf_render {v : Json} (h : v.Numberless) : IsTextOf v.render v := by
  have hscan := h.scans []
  rw [List.append_nil] at hscan
  rw [IsTextOf, render, String.toList_ofList, hscan]
  exact List.append_nil v.tokens

end QuadIndex.Json
