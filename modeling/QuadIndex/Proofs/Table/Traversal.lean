import QuadIndex.Engine.Basic
import QuadIndex.Proofs.Table.Cursor

/-! # Cursors over a table that is written between polls

A cursor keeps no row, only the place that it came to. Each poll therefore finds the least key
behind that place in the table of that moment, and a key that stays is found unless the limit comes
first. -/

namespace QuadIndex

/-! ## One poll -/

namespace Cursor

variable {c : Cursor} {t : Table} {k l : Bytes}

def Admits (c : Cursor) (k : Bytes) : Prop := c.lower.below k = true ∧ c.upper.above k = true

theorem admits_ofRange_iff {r : KeyRange} : (ofRange r).Admits k ↔ r.contains k = true := by
  rw [KeyRange.contains, Bool.and_eq_true]
  rfl

theorem admits_past_iff (hk : c.Admits k) : (c.past k).Admits l ↔ c.Admits l ∧ k < l := by
  have hlower : (c.past k).lower.below l = true ↔ k < l := decide_eq_true_iff
  rw [Admits, hlower]
  constructor
  · rintro ⟨hlt, hupper⟩
    exact ⟨⟨Bound.below_of_lt hk.1 hlt, hupper⟩, hlt⟩
  · rintro ⟨hl, hlt⟩
    exact ⟨hlt, hl.2⟩

theorem mem_between_iff {e : Entry} :
    e ∈ t.between c.lower c.upper ↔ e ∈ t.entries ∧ c.Admits e.1 := Table.mem_between_iff

/-- The cursor has finished exactly if its limit is used up or its ends have crossed. -/
def Tidy (c : Cursor) : Prop :=
  c.finished = true ↔ c.remaining = some 0 ∨ c.lower.crossed c.upper = true

theorem tidy_ofRange (r : KeyRange) : (ofRange r).Tidy := by
  simp [Tidy, ofRange, KeyRange.isEmpty, or_comm]

theorem tidy_past (c : Cursor) (k : Bytes) : (c.past k).Tidy := by
  simp [Tidy, past]

theorem Tidy.consistent (h : c.Tidy) : c.Consistent := fun hr => h.2 (.inl hr)

theorem next_of_finished (h : c.finished = true) (t : Table) : c.next t = (none, c) := if_pos h

/-- A poll finds the least key between the ends of the cursor, or none and then never again. -/
theorem next_cases (c : Cursor) (t : Table) :
    (∃ d, c.next t = (none, d) ∧ d.finished = true ∧
        (c.finished = true ∨ t.between c.lower c.upper = [])) ∨
      ∃ e es, c.finished = false ∧ t.between c.lower c.upper = e :: es ∧
        c.next t = (some e, c.past e.1) := by
  cases hf : c.finished with
  | true => exact .inl ⟨c, next_of_finished hf t, hf, .inl rfl⟩
  | false =>
      rw [next, if_neg (by simp [hf]), Table.first?_eq_head?]
      cases t.between c.lower c.upper with
      | nil => exact .inl ⟨_, rfl, rfl, .inr rfl⟩
      | cons e es => exact .inr ⟨e, es, rfl, rfl, rfl⟩

end Cursor

/-! ## Visits -/

structure Visit where
  table : Table
  answer : Option (Except EngineError Bytes)
  row : Option Entry

/-- The keys that were given, in the order of the polls. -/
def Visit.keys (vs : List Visit) : List Bytes := vs.filterMap fun v => v.row.map Prod.fst

/-- The row has the least key of the table that lies in the range and comes after the keys that
were given before. -/
structure Visit.Least (v : Visit) (Admits : Bytes → Prop) (given : List Bytes) (e : Entry) :
    Prop where
  stored : e ∈ v.table.entries
  admitted : Admits e.1
  later : ∀ k ∈ given, k < e.1
  least : ∀ d ∈ v.table.entries, Admits d.1 → (∀ k ∈ given, k < d.1) → e.1 ≤ d.1

namespace Cursor

/-- A cursor is polled again and again, each time after some batches were written. -/
def visits (c : Cursor) (t : Table) : List (List Batch) → List Visit
  | [] => []
  | bs :: rounds =>
    let t := bs.foldl Table.apply t
    let (answer, d, _) := Engine.next c t
    ⟨t, answer, (c.next t).1⟩ :: visits d t rounds

theorem visits_cons (c : Cursor) (t : Table) (bs : List Batch) (rounds : List (List Batch)) :
    c.visits t (bs :: rounds) =
      ⟨bs.foldl Table.apply t, (c.next (bs.foldl Table.apply t)).1.map fun e => .ok e.2,
          (c.next (bs.foldl Table.apply t)).1⟩ ::
        (c.next (bs.foldl Table.apply t)).2.visits (bs.foldl Table.apply t) rounds := rfl

theorem answer_visits (c : Cursor) (t : Table) (rounds : List (List Batch)) :
    ∀ v ∈ c.visits t rounds, v.answer = v.row.map fun e => .ok e.2 := by
  induction rounds generalizing c t with
  | nil => nofun
  | cons bs rounds ih =>
      rw [visits_cons]
      exact List.forall_mem_cons.2 ⟨rfl, ih _ _⟩

theorem row_visits_of_finished {c : Cursor} (h : c.finished = true) (t : Table)
    (rounds : List (List Batch)) : ∀ v ∈ c.visits t rounds, v.row = none := by
  induction rounds generalizing t with
  | nil => nofun
  | cons bs rounds ih =>
      rw [visits_cons, next_of_finished h]
      exact List.forall_mem_cons.2 ⟨rfl, ih _⟩

end Cursor

/-! ## Sweeps -/

open Visit (keys)

theorem Visit.keys_of_none {vs : List Visit} (h : ∀ v ∈ vs, v.row = none) : keys vs = [] := by
  rw [keys, List.filterMap_eq_nil_iff]
  intro v hv
  rw [h v hv]
  rfl

theorem Visit.keys_cons {v : Visit} {e : Entry} (h : v.row = some e) (vs : List Visit) :
    keys (v :: vs) = e.1 :: keys vs := by
  simp [keys, h]

/-- Visits of a cursor: each of them finds the least key between its ends and moves it there, until
one finds none because the limit is used up or the table of that moment has no such key. -/
inductive Sweep : Cursor → List Visit → Prop
  | finished {c : Cursor} {vs : List Visit} (none : ∀ v ∈ vs, v.row = none)
      (reason : c.remaining = some 0 ∨ ∀ v ∈ vs.head?, ∀ e ∈ v.table.entries, ¬ c.Admits e.1) :
      Sweep c vs
  | row {c : Cursor} {v : Visit} {vs : List Visit} {e : Entry} (found : v.row = some e)
      (least : v.Least c.Admits [] e) (wanted : c.remaining ≠ some 0)
      (rest : Sweep (c.past e.1) vs) : Sweep c (v :: vs)

theorem Cursor.Tidy.sweep {c : Cursor} (h : c.Tidy) (t : Table) (rounds : List (List Batch)) :
    Sweep c (c.visits t rounds) := by
  induction rounds generalizing c t with
  | nil => exact .finished nofun (.inr nofun)
  | cons bs rounds ih =>
      rw [visits_cons]
      generalize bs.foldl Table.apply t = t
      rcases c.next_cases t with ⟨d, hnext, hd, hnone⟩ | ⟨e, es, hf, hrows, hnext⟩
      · rw [hnext]
        refine .finished (List.forall_mem_cons.2 ⟨rfl, row_visits_of_finished hd t rounds⟩) ?_
        have hrows : c.remaining = some 0 ∨ t.between c.lower c.upper = [] := by
          rcases hnone with hf | hrows
          · exact (h.1 hf).imp_right fun hc => Table.between_eq_nil_of_crossed hc t
          · exact .inr hrows
        refine hrows.imp_right fun hrows => ?_
        rintro _ ⟨⟩ e he hadmits
        exact List.not_mem_nil (hrows ▸ mem_between_iff.2 ⟨he, hadmits⟩)
      · rw [hnext]
        have hmem : e ∈ t.between c.lower c.upper := hrows ▸ List.mem_cons_self
        obtain ⟨hstored, hadmits⟩ := mem_between_iff.1 hmem
        refine .row rfl ⟨hstored, hadmits, nofun, ?_⟩ (fun hr => ?_) (ih (tidy_past c e.1) t)
        · intro d hd hadmitted _
          have hasc := t.ascending_between c.lower c.upper
          have hd : d ∈ t.between c.lower c.upper := mem_between_iff.2 ⟨hd, hadmitted⟩
          rw [hrows] at hd hasc
          rcases List.mem_cons.1 hd with rfl | hd
          · exact Std.le_refl _
          · exact Std.le_of_lt ((List.pairwise_cons.1 hasc).1 d hd)
        · rw [h.consistent hr] at hf
          contradiction

namespace Sweep

variable {c : Cursor} {vs : List Visit} {k : Bytes}

theorem admits (h : Sweep c vs) : ∀ k ∈ keys vs, c.Admits k := by
  induction h with
  | finished hnone => simp [Visit.keys_of_none hnone]
  | row hfound hleast _ _ ih =>
      rw [Visit.keys_cons hfound]
      refine List.forall_mem_cons.2 ⟨hleast.admitted, fun k hk => ?_⟩
      exact ((Cursor.admits_past_iff hleast.admitted).1 (ih k hk)).1

theorem pairwise (h : Sweep c vs) : (keys vs).Pairwise (· < ·) := by
  induction h with
  | finished hnone => simp [Visit.keys_of_none hnone]
  | row hfound hleast _ hrest ih =>
      rw [Visit.keys_cons hfound]
      refine List.pairwise_cons.2 ⟨fun k hk => ?_, ih⟩
      exact ((Cursor.admits_past_iff hleast.admitted).1 (hrest.admits k hk)).2

theorem length_le (h : Sweep c vs) {n : Nat} (hn : c.remaining = some n) :
    (keys vs).length ≤ n := by
  induction h generalizing n with
  | finished hnone => simp [Visit.keys_of_none hnone]
  | @row c _ _ e hfound _ hwanted _ ih =>
      rw [Visit.keys_cons hfound, List.length_cons]
      have hpast : (c.past e.1).remaining = some (n - 1) := by
        rw [Cursor.past, hn]
        rfl
      have hne : n ≠ 0 := fun h => hwanted (h ▸ hn)
      have hle := ih hpast
      omega

/-- Nothing comes after a poll that found nothing. -/
theorem none_later (h : Sweep c vs) {before after : List Visit} {v : Visit}
    (hsplit : vs = before ++ v :: after) (hv : v.row = none) : ∀ w ∈ after, w.row = none := by
  induction h generalizing before with
  | finished hnone =>
      intro w hw
      exact hnone w (hsplit ▸ List.mem_append_right _ (List.mem_cons_of_mem v hw))
  | row hfound _ _ _ ih =>
      cases before with
      | nil =>
          obtain ⟨rfl, rfl⟩ := List.cons.inj hsplit
          exact absurd (hv.symm.trans hfound) nofun
      | cons b before => exact ih (List.cons.inj hsplit).2

theorem least (h : Sweep c vs) {before after : List Visit} {v : Visit}
    (hsplit : vs = before ++ v :: after) {e : Entry} (hv : v.row = some e) :
    v.Least c.Admits (keys before) e := by
  induction h generalizing before with
  | finished hnone =>
      have hno := hnone v (hsplit ▸ List.mem_append_right _ List.mem_cons_self)
      exact absurd (hno.symm.trans hv) nofun
  | row hfound hleast _ _ ih =>
      cases before with
      | nil =>
          obtain ⟨rfl, rfl⟩ := List.cons.inj hsplit
          obtain rfl := Option.some.inj (hv.symm.trans hfound)
          exact hleast
      | cons b before =>
          obtain ⟨rfl, rfl⟩ := List.cons.inj hsplit
          have hrest := ih rfl
          have hpast {l : Bytes} := Cursor.admits_past_iff (l := l) hleast.admitted
          obtain ⟨hadmits, hlt⟩ := hpast.1 hrest.admitted
          rw [Visit.keys_cons hfound]
          refine ⟨hrest.stored, hadmits, List.forall_mem_cons.2 ⟨hlt, hrest.later⟩, ?_⟩
          intro d hd hadmitted hgiven
          obtain ⟨hfirst, hgiven⟩ := List.forall_mem_cons.1 hgiven
          exact hrest.least d hd (hpast.2 ⟨hadmitted, hfirst⟩) hgiven

/-- A key that stays is given before a poll finds nothing, unless the limit was used up. -/
theorem mem_keys (h : Sweep c vs) {before after : List Visit} {v : Visit}
    (hsplit : vs = before ++ v :: after) (hv : v.row = none)
    (hlimit : ∀ n, c.remaining = some n → (keys before).length < n) (hk : c.Admits k)
    (hstays : ∀ w ∈ before ++ [v], k ∈ w.table.entries.map Prod.fst) : k ∈ keys before := by
  induction h generalizing before with
  | @finished c vs _ hreason =>
      rcases hreason with hspent | hnone
      · exact absurd (hlimit 0 hspent) (Nat.not_lt_zero _)
      · -- The first poll found no key between the ends, and this one is there.
        obtain ⟨w, hw, hhead⟩ : ∃ w ∈ before ++ [v], w ∈ vs.head? := by
          cases before with
          | nil => exact ⟨v, List.mem_cons_self, by simp [hsplit]⟩
          | cons b before => exact ⟨b, List.mem_cons_self, by simp [hsplit]⟩
        obtain ⟨e, he, rfl⟩ := List.mem_map.1 (hstays w hw)
        exact absurd hk (hnone w hhead e he)
  | @row c w vs e hfound hleast hwanted _ ih =>
      cases before with
      | nil =>
          obtain ⟨rfl, rfl⟩ := List.cons.inj hsplit
          exact absurd (hv.symm.trans hfound) nofun
      | cons b before =>
          obtain ⟨rfl, rfl⟩ := List.cons.inj hsplit
          rw [Visit.keys_cons hfound] at hlimit ⊢
          obtain ⟨hfirst, hstays⟩ := List.forall_mem_cons.1 hstays
          obtain ⟨d, hd, rfl⟩ := List.mem_map.1 hfirst
          have hle := hleast.least d hd hk nofun
          by_cases heq : d.1 = e.1
          · exact heq ▸ List.mem_cons_self
          · have hlt : e.1 < d.1 := Std.lt_of_le_of_ne hle (Ne.symm heq)
            refine List.mem_cons_of_mem _ (ih rfl ?_ ?_ hstays)
            · intro n hn
              obtain ⟨m, hm, rfl⟩ := Option.map_eq_some_iff.1 hn
              have hless := hlimit m hm
              rw [List.length_cons] at hless
              omega
            · exact (Cursor.admits_past_iff hleast.admitted).2 ⟨hk, hlt⟩

end Sweep

/-! ## Without writes -/

namespace Cursor

variable {c : Cursor}

theorem rows_eq_take_rest (h : c.Consistent) (t : Table) (n : Nat) :
    rows t n c = (c.rest t).take n := by
  induction n generalizing c with
  | zero => rfl
  | succ n ih =>
      rw [rows]
      cases hr : c.rest t with
      | nil =>
          obtain ⟨d, hd⟩ := next_of_rest_nil h hr
          rw [hd]
          rfl
      | cons e es =>
          obtain ⟨hnext, hes⟩ := next_of_rest_cons hr
          rw [hnext, List.take_succ_cons, ← hes]
          exact congrArg _ (ih (consistent_past c e.1))

/-- Over a table that stays as it is, polls give the rows that the cursor would give at once. -/
theorem rows_visits_idle (c : Cursor) (t : Table) (n : Nat) :
    (c.visits t (List.replicate n [])).filterMap (·.row) = rows t n c := by
  induction n generalizing c with
  | zero => rfl
  | succ n ih =>
      rw [List.replicate_succ, visits_cons, rows, List.foldl_nil]
      rcases c.next_cases t with ⟨d, hnext, hd, -⟩ | ⟨e, es, -, -, hnext⟩
      · have hnone := row_visits_of_finished hd t (List.replicate n [])
        rw [hnext, List.filterMap_cons_none rfl]
        exact List.filterMap_eq_nil_iff.2 hnone
      · rw [hnext]
        exact congrArg (e :: ·) (ih (c.past e.1))

end Cursor

namespace Table

/-- A scan gives the entries of its range in key order, as far as its limit goes. -/
theorem scan_eq (t : Table) (r : KeyRange) :
    t.scan r = Cursor.cut r.limit (t.between r.lower r.upper) := by
  have hrest := Cursor.rest_ofRange r t
  rw [scan, Cursor.rows_eq_take_rest (Cursor.consistent_ofRange r), ← hrest,
    List.take_of_length_le (Cursor.length_rest_le _ t)]

end Table

/-! ## Every sequence of writes and polls -/

namespace Cursor

/-- Whatever is written between its polls, a cursor gives at each of them the value of the least key
that the table holds in its range behind the keys that it gave before, and no more rows than its
limit. After a poll that finds nothing no other finds anything; if the limit was not used up by
then, every key of the range that was there all the while has been given. Without writes the rows
are the first ones of the range. -/
theorem visits_of_range (r : KeyRange) (t : Table) (rounds : List (List Batch)) :
    let vs := (ofRange r).visits t rounds
    (∀ before v after, vs = before ++ v :: after →
      (v.answer = v.row.map fun e => .ok e.2) ∧
      (∀ e, v.row = some e → v.Least (r.contains · = true) (keys before) e) ∧
      (v.row = none → (∀ w ∈ after, w.row = none) ∧
        ((∀ n, r.limit = some n → (keys before).length < n) → ∀ k, r.contains k = true →
          (∀ w ∈ before ++ [v], k ∈ w.table.entries.map Prod.fst) → k ∈ keys before))) ∧
    (keys vs).Pairwise (· < ·) ∧ (∀ k ∈ keys vs, r.contains k = true) ∧
    (∀ n, r.limit = some n → (keys vs).length ≤ n) ∧
    ∀ n, ((ofRange r).visits t (List.replicate n [])).filterMap (·.row) =
      (cut r.limit (t.entries.filter fun e => r.contains e.1)).take n := by
  intro vs
  have hsweep : Sweep (ofRange r) vs := (tidy_ofRange r).sweep t rounds
  have hadmits : (ofRange r).Admits = (r.contains · = true) :=
    funext fun k => propext admits_ofRange_iff
  refine ⟨?_, hsweep.pairwise, fun k hk => admits_ofRange_iff.1 (hsweep.admits k hk),
    fun n => hsweep.length_le, ?_⟩
  · intro before v after hsplit
    have hv : v ∈ vs := hsplit ▸ List.mem_append_right before List.mem_cons_self
    refine ⟨answer_visits _ t rounds v hv, fun e he => hadmits ▸ hsweep.least hsplit he, ?_⟩
    intro hnone
    refine ⟨hsweep.none_later hsplit hnone, fun hlimit k hk hstays => ?_⟩
    exact hsweep.mem_keys hsplit hnone hlimit (admits_ofRange_iff.2 hk) hstays
  · intro n
    rw [rows_visits_idle, rows_eq_take_rest (consistent_ofRange r), rest_ofRange]
    rfl

/-- A key comes in behind the first row, the next one goes, and one that comes after the end of the
range was met is not seen any more. -/
theorem visits_of_range_interleaved :
    let vs := (ofRange ⟨.inclusive [1], .exclusive [9], some 5⟩).visits
      ((Table.empty.insert [1] [10]).insert [3] [30])
      [[], [[.put [2] [20], .erase [3]]], [], [[.put [5] [50]]]]
    vs.map (·.answer) = [some (.ok [10]), some (.ok [20]), none, none] ∧
      [1] ∈ keys (vs.take 2) ∧ ∀ w ∈ vs.drop 3, w.row = none := by
  intro vs
  obtain ⟨hvisit, -⟩ := visits_of_range ⟨.inclusive [1], .exclusive [9], some 5⟩
    ((Table.empty.insert [1] [10]).insert [3] [30])
    [[], [[.put [2] [20], .erase [3]]], [], [[.put [5] [50]]]]
  have hsplit : vs = vs.take 2 ++ vs[2] :: vs.drop 3 := rfl
  obtain ⟨hlater, hstays⟩ := (hvisit _ _ _ hsplit).2.2 rfl
  refine ⟨rfl, hstays ?_ [1] (by decide) ?_, hlater⟩
  · rintro n ⟨⟩
    decide
  · decide

end Cursor

end QuadIndex
