import QuadIndex.Proofs.Scan.Turn

/-! # What a stream delivers

A stream owes the items of its scans, one scan after the other, as far as its page reaches. Every
turn keeps this account: it gives the first item that is owed, or brings the stream closer to
giving it. Only a failing engine cuts the account short. -/

namespace QuadIndex

/-! ## Pages of items -/

/-- What a row comes to, unless it is filtered out. -/
def Scan.readRow? (filter : Option (List Predicate)) (e : Entry) : Option Item :=
  match Record.decode e.2 with
  | .error f => some (.error (.engine (.corruption f.message)))
  | .ok q => if passes filter q then some (.ok q) else none

/-- The items of a scan by itself. -/
def Scan.items (t : Table) (s : Scan) : List Item :=
  (Cursor.cut s.range.limit (t.between s.range.lower s.range.upper)).filterMap
    (readRow? s.filter)

def Scan.rows (t : Table) (s : Scan) : List Entry := t.between s.range.lower s.range.upper

namespace Paging

/-- The items of a page. An error is never passed over, and nothing follows it. -/
def page : Nat → Option Nat → List Item → List Item
  | _, some 0, _ => []
  | _, _, [] => []
  | _, _, .error e :: _ => [.error e]
  | skip + 1, remaining, .ok _ :: items => page skip remaining items
  | 0, remaining, .ok q :: items => .ok q :: page 0 (remaining.map (· - 1)) items

variable {skip : Nat} {remaining : Option Nat} {items : List Item}

@[simp] theorem page_nil : page skip remaining [] = [] := by
  cases remaining with
  | none => cases skip <;> rfl
  | some n => cases n <;> cases skip <;> rfl

@[simp] theorem page_some_zero : page skip (some 0) items = [] := by
  cases items <;> cases skip <;> rfl

theorem page_error (h : remaining ≠ some 0) (e : QueryError) :
    page skip remaining (.error e :: items) = [.error e] := by
  cases skip <;> simp [page]

theorem page_skip (h : remaining ≠ some 0) (q : Quad) :
    page (skip + 1) remaining (.ok q :: items) = page skip remaining items := by
  simp [page]

theorem page_give (h : remaining ≠ some 0) (q : Quad) :
    page 0 remaining (.ok q :: items) = .ok q :: page 0 (remaining.map (· - 1)) items := by
  simp [page]

@[simp] theorem slice_default {α : Type} (as : List α) : slice {} as = as := rfl

/-- Of quads alone a page is a slice. -/
theorem page_map_ok (skip : Nat) (remaining : Option Nat) (qs : List Quad) :
    page skip remaining (qs.map .ok) = (slice ⟨skip, remaining⟩ qs).map .ok := by
  induction qs generalizing skip remaining with
  | nil => cases remaining <;> simp [slice]
  | cons q qs ih =>
      by_cases hzero : remaining = some 0
      · simp [hzero, slice]
      · rw [List.map_cons]
        cases skip with
        | succ skip =>
            rw [page_skip hzero, ih]
            cases remaining <;> simp [slice]
        | zero =>
            rw [page_give hzero, ih]
            cases remaining with
            | none => rfl
            | some n =>
                cases n with
                | zero => exact absurd rfl hzero
                | succ n => rfl

/-- Where every row counts, rows past the end of the page need not be read. -/
theorem page_take (rows : List Entry) (skip n : Nat) :
    page skip (some n) ((rows.take (skip + n)).filterMap (Scan.readRow? none) ++ items) =
      page skip (some n) (rows.filterMap (Scan.readRow? none) ++ items) := by
  induction rows generalizing skip n with
  | nil => rw [List.take_nil]
  | cons e es ih =>
      cases n with
      | zero => rw [page_some_zero, page_some_zero]
      | succ n =>
          have hne : some (n + 1) ≠ some 0 := by simp
          rw [← Nat.add_assoc, List.take_succ_cons]
          cases hd : Record.decode e.2 with
          | error f =>
              have hr : Scan.readRow? none e = some (.error (.engine (.corruption f.message))) := by
                simp [Scan.readRow?, hd]
              rw [List.filterMap_cons_some hr, List.filterMap_cons_some hr, List.cons_append,
                List.cons_append, page_error hne, page_error hne]
          | ok q =>
              have hr : Scan.readRow? none e = some (.ok q) := by
                simp [Scan.readRow?, Scan.passes, hd]
              rw [List.filterMap_cons_some hr, List.filterMap_cons_some hr, List.cons_append,
                List.cons_append]
              cases skip with
              | zero =>
                  rw [page_give hne, page_give hne]
                  exact congrArg _ (ih 0 n)
              | succ skip =>
                  rw [page_skip hne, page_skip hne, Nat.add_right_comm]
                  exact ih skip (n + 1)

end Paging

/-! ## Limits of scans -/

namespace Scan

/-- The limits of scans without a filter cut nothing off that is wanted: each of them is not below
the rows of its scan, or not below what is still wanted after the items of the scans before it. -/
def Ample (t : Table) : Nat → List Scan → Prop
  | _, [] => True
  | wanted, s :: later =>
    (s.filter = none → ∀ c, s.range.limit = some c → wanted ≤ c ∨ (s.rows t).length ≤ c) ∧
      Ample t (wanted - (s.items t).length) later

variable {t : Table} {wanted wanted' : Nat} {scans : List Scan}

theorem Ample.mono (h : Ample t wanted scans) (hle : wanted' ≤ wanted) :
    Ample t wanted' scans := by
  induction scans generalizing wanted wanted' with
  | nil => trivial
  | cons s later ih =>
      refine ⟨fun hf c hc => ?_, ih h.2 (Nat.sub_le_sub_right hle _)⟩
      exact (h.1 hf c hc).imp_left (Nat.le_trans hle)

/-- Limits that all that is wanted does not exceed are ample whatever the scans give. -/
theorem ample_of_le (h : ∀ s ∈ scans, s.filter = none → ∀ c, s.range.limit = some c → wanted ≤ c) :
    Ample t wanted scans := by
  induction scans generalizing wanted with
  | nil => trivial
  | cons s later ih =>
      refine ⟨fun hf c hc => .inl (h s List.mem_cons_self hf c hc), ih fun r hr hf c hc => ?_⟩
      exact Nat.le_trans (Nat.sub_le _ _) (h r (List.mem_cons_of_mem s hr) hf c hc)

/-- Without a filter every row gives an item. -/
theorem length_readRow? (rows : List Entry) :
    (rows.filterMap (readRow? none)).length = rows.length := by
  rw [List.length_filterMap_eq_countP, List.countP_eq_length]
  intro e _
  rw [readRow?]
  split
  · rfl
  · rfl

end Scan

/-! ## The account of a stream -/

open LawfulEngine (place Quiet)

section Account

variable (σ : Type) {κ : Type} [Engine σ κ] [LawfulEngine σ κ]

def ActiveScan.items (t : Table) (a : ActiveScan κ) : List Item :=
  ((place σ a.cursor).rest t).filterMap (Scan.readRow? a.filter)

namespace ResultStream

/-- The items that are left of the scan that a stream is reading. -/
def current (t : Table) (st : ResultStream κ) : List Item := st.active.elim [] (·.items σ t)

def unread (t : Table) (st : ResultStream κ) : List Item :=
  st.current σ t ++ st.pending.flatMap (·.items t)

/-- The items that a stream is still to give. -/
def owed (t : Table) (st : ResultStream κ) : List Item :=
  if st.phase = .ready then Paging.page st.skip st.remaining (st.unread σ t) else []

omit σ [Engine σ κ] [LawfulEngine σ κ] in
/-- The page of a stream can be counted, and once some items have come, the limits of the scans to
open are ample for the rest of it. -/
def Covers (t : Table) (st : ResultStream κ) (items : List Item) : Prop :=
  ∀ n, st.remaining = some n → (t.size ≤ Paging.maxCount ∨ st.skip + n ≤ Paging.maxCount) ∧
    Scan.Ample t (st.skip + n - items.length) st.pending

structure Steady (t : Table) (st : ResultStream κ) : Prop where
  consistent : ∀ a, st.active = some a → (place σ a.cursor).Consistent
  wanted : st.phase = .ready → st.remaining ≠ some 0
  covers : st.phase = .ready → st.Covers t (st.current σ t)

end ResultStream
end Account

namespace ResultStream

variable {σ κ : Type} [Engine σ κ] [LawfulEngine σ κ] {st st' : ResultStream κ} {s s' : σ}

theorem owed_of_not_ready (h : st.phase ≠ .ready) (t : Table) : st.owed σ t = [] := if_neg h

theorem owed_of_ready (h : st.phase = .ready) (t : Table) :
    st.owed σ t = Paging.page st.skip st.remaining (st.unread σ t) := if_pos h

theorem Steady.placed {t : Table} (h : st.Steady σ t) : st.Placed σ := by
  intro c hc
  obtain ⟨a, ha, rfl⟩ := Option.map_eq_some_iff.1 hc
  exact h.consistent a ha

/-- The engine after reading: its table is the same, and it is as quiet as before. -/
structure Read (s s' : σ) : Prop where
  table : Engine.table s' = Engine.table s
  quiet : Quiet s → Quiet s'

theorem Read.refl (s : σ) : Read s s := ⟨rfl, id⟩

theorem Read.trans {s'' : σ} (h : Read s s') (h' : Read s' s'') : Read s s'' :=
  ⟨h'.table.trans h.table, h'.quiet ∘ h.quiet⟩

theorem read_releaseActive (st : ResultStream κ) (s : σ) : Read s (st.releaseActive s) := by
  rw [releaseActive]
  split
  · exact ⟨LawfulEngine.table_release _ s, LawfulEngine.quiet_release _⟩
  · exact Read.refl s

/-- What an answer of a stream says about the items that were owed before. -/
inductive Answer (st : ResultStream κ) (s : σ) : Option Item → ResultStream κ → Prop
  | quad {q : Quad} {st' : ResultStream κ}
      (owed : st.owed σ (Engine.table s) = .ok q :: st'.owed σ (Engine.table s)) :
      Answer st s (some (.ok q)) st'
  | error {e : QueryError} {st' : ResultStream κ}
      (owed : st.owed σ (Engine.table s) = [.error e]) (stopped : st'.phase ≠ .ready) :
      Answer st s (some (.error e)) st'
  | fault {reason : String} {st' : ResultStream κ}
      (loud : ¬ Quiet s) (stopped : st'.phase ≠ .ready) :
      Answer st s (some (.error (.engine (.injectedFault reason)))) st'
  | done {st' : ResultStream κ}
      (owed : st.owed σ (Engine.table s) = []) (stopped : st'.phase ≠ .ready) :
      Answer st s none st'

inductive TurnSpec (st : ResultStream κ) (s : σ) : Turn → ResultStream κ → Prop
  | again {st' : ResultStream κ}
      (owed : st'.owed σ (Engine.table s) = st.owed σ (Engine.table s)) : TurnSpec st s .again st'
  | give {item : Option Item} {st' : ResultStream κ} (answer : Answer st s item st') :
      TurnSpec st s (.give item) st'

/-! ## Turns -/

theorem steady_finish {phase : Phase} (h : phase ≠ .ready) (t : Table) (st : ResultStream κ)
    (s : σ) : (st.finish phase s).1.Steady σ t :=
  ⟨nofun, fun hp => absurd hp h, fun hp => absurd hp h⟩

theorem fail_spec (st : ResultStream κ) (indexName : String) (e : QueryError) (t : Table)
    (s : σ) :
    (st.fail indexName e s).1 = .give (some (.error e)) ∧ Read s (st.fail indexName e s).2.2 ∧
      (st.fail indexName e s).2.1.Steady σ t ∧ (st.fail indexName e s).2.1.phase ≠ .ready :=
  ⟨rfl, read_releaseActive _ s, steady_finish (by decide) t _ s,
    (by decide : Phase.failed ≠ .ready)⟩

omit [LawfulEngine σ κ] [Engine σ κ] in
/-- Where every row counts, no more rows are needed than the page can reach. -/
theorem page_take_addCounts {rows : List Entry} {skip n : Nat} {items : List Item}
    (hcount : rows.length ≤ Paging.maxCount ∨ skip + n ≤ Paging.maxCount) :
    Paging.page skip (some n) ((Cursor.cut (some (Paging.addCounts skip n)) rows).filterMap
      (Scan.readRow? none) ++ items) =
        Paging.page skip (some n) (rows.filterMap (Scan.readRow? none) ++ items) := by
  have hcut : Cursor.cut (some (Paging.addCounts skip n)) rows = rows.take (skip + n) := by
    rw [Cursor.cut, Paging.addCounts]
    rcases hcount with hrows | hshort
    · rw [← List.take_take, List.take_of_length_le hrows]
    · rw [Nat.min_eq_left hshort]
  rw [hcut, Paging.page_take]

omit [LawfulEngine σ κ] [Engine σ κ] in
/-- Where every row counts, a limit of the scan that is ample changes nothing. -/
theorem page_cut {limit : Option Nat} {rows : List Entry} {skip n : Nat} {items : List Item}
    (hlimit : ∀ c, limit = some c → skip + n ≤ c ∨ rows.length ≤ c) :
    Paging.page skip (some n) ((Cursor.cut limit rows).filterMap (Scan.readRow? none) ++ items) =
      Paging.page skip (some n) (rows.filterMap (Scan.readRow? none) ++ items) := by
  cases limit with
  | none => rfl
  | some c =>
      rw [Cursor.cut]
      rcases hlimit c rfl with hwanted | hrows
      · rw [← Paging.page_take, List.take_take, Nat.min_eq_left hwanted, Paging.page_take]
      · rw [List.take_of_length_le hrows]

/-- The items of a scan under the cap that a stream gives it. -/
def capped (t : Table) (st : ResultStream κ) (scan : Scan) : List Item :=
  (Cursor.cut (st.cap scan) (scan.rows t)).filterMap (Scan.readRow? scan.filter)

omit [LawfulEngine σ κ] [Engine σ κ] in
/-- The cap of a scan keeps every row that the page can reach. -/
theorem page_capped {t : Table} {scan : Scan} {pending : List Scan}
    (h : st.Covers t []) (hp : st.pending = scan :: pending) (items : List Item) :
    Paging.page st.skip st.remaining (st.capped t scan ++ items) =
      Paging.page st.skip st.remaining (scan.items t ++ items) := by
  rw [capped, cap, Scan.items, Scan.rows]
  cases hf : scan.filter with
  | some ps => rfl
  | none =>
      cases hr : st.remaining with
      | none => rfl
      | some n =>
          obtain ⟨hcount, hample⟩ := h n hr
          rw [hp] at hample
          have hrows := hcount.imp_left
            (Nat.le_trans (t.length_between_le scan.range.lower scan.range.upper))
          dsimp only
          rw [page_take_addCounts hrows]
          exact (page_cut (hample.1 hf)).symm

omit [LawfulEngine σ κ] [Engine σ κ] in
/-- Under its cap a scan gives all of its items, or as many as are wanted. -/
theorem length_capped {t : Table} {n : Nat} (scan : Scan) (hn : st.remaining = some n)
    (hcount : t.size ≤ Paging.maxCount ∨ st.skip + n ≤ Paging.maxCount) :
    (scan.items t).length ≤ (st.capped t scan).length ∨
      st.skip + n ≤ (st.capped t scan).length := by
  rw [capped, cap, Scan.items, Scan.rows]
  cases hf : scan.filter with
  | some ps => exact .inl (Nat.le_refl _)
  | none =>
      have hrows := hcount.imp_left
        (Nat.le_trans (t.length_between_le scan.range.lower scan.range.upper))
      have hcut := Cursor.length_cut_le scan.range.limit
        (t.between scan.range.lower scan.range.upper)
      rw [hn]
      dsimp only
      rw [Scan.length_readRow?, Scan.length_readRow?, Cursor.cut, List.length_take,
        Paging.addCounts]
      omega

omit [LawfulEngine σ κ] [Engine σ κ] in
/-- While a scan is read under its cap, the limits of the scans after it stay ample. -/
theorem Covers.capped {t : Table} {scan : Scan} {pending : List Scan}
    (h : st.Covers t []) (hp : st.pending = scan :: pending) :
    Covers t { st with pending } (st.capped t scan) := by
  intro n hn
  obtain ⟨hcount, hample⟩ := h n hn
  rw [hp, List.length_nil, Nat.sub_zero] at hample
  refine ⟨hcount, hample.2.mono ?_⟩
  have hn : st.remaining = some n := hn
  have hitems := length_capped scan hn hcount
  dsimp only
  omega

theorem openScan_spec {scan : Scan} {pending : List Scan} (hst : st.Steady σ (Engine.table s))
    (hready : st.phase = .ready) (ha : st.active = none) (hp : st.pending = scan :: pending) :
    Read s ({ st with pending }.openScan scan s).2 ∧
      ({ st with pending }.openScan scan s).1.Steady σ (Engine.table s) ∧
      TurnSpec st s .again ({ st with pending }.openScan scan s).1 := by
  let range : KeyRange := ⟨scan.range.lower, scan.range.upper, st.cap scan⟩
  have hplace : place σ (Engine.scan range s).1 = .ofRange range := LawfulEngine.place_scan range s
  have hcovers : st.Covers (Engine.table s) [] := by
    have hcovers := hst.covers hready
    rwa [current, ha] at hcovers
  have hcurrent : ({ st with pending }.openScan scan s).1.current σ (Engine.table s) =
      st.capped (Engine.table s) scan := by
    change ((place σ (Engine.scan range s).1).rest (Engine.table s)).filterMap _ = _
    rw [hplace, Cursor.rest_ofRange]
    rfl
  refine ⟨⟨LawfulEngine.table_scan range s, LawfulEngine.quiet_scan range⟩,
    ⟨?_, hst.wanted, fun _ => hcurrent ▸ hcovers.capped hp⟩, .again ?_⟩
  · rintro a ⟨⟩
    exact hplace ▸ Cursor.consistent_ofRange range
  · have hunread : st.unread σ (Engine.table s) =
        scan.items (Engine.table s) ++ pending.flatMap (·.items (Engine.table s)) := by
      simp [unread, current, ha, hp]
    calc
      ({ st with pending }.openScan scan s).1.owed σ (Engine.table s) =
          Paging.page st.skip st.remaining (st.capped (Engine.table s) scan ++
            pending.flatMap (·.items (Engine.table s))) := by
        rw [← hcurrent]
        exact if_pos hready
      _ = Paging.page st.skip st.remaining
            (scan.items (Engine.table s) ++ pending.flatMap (·.items (Engine.table s))) :=
        page_capped hcovers hp _
      _ = st.owed σ (Engine.table s) := by rw [owed_of_ready hready, hunread]

/-- A decoded quad is accounted for. Here `before` is the stream before it read the row. -/
theorem accept_spec {before : ResultStream κ} {s₀ : σ} {a : ActiveScan κ} {e : Entry} {q : Quad}
    (hplaced : ∀ a, st.active = some a → (place σ a.cursor).Consistent)
    (hready : st.phase = .ready) (hwanted : st.remaining ≠ some 0)
    (hcovers : st.Covers (Engine.table s₀)
      ((Scan.readRow? a.filter e).toList ++ st.current σ (Engine.table s₀)))
    (hd : Record.decode e.2 = .ok q)
    (howed : before.owed σ (Engine.table s₀) = Paging.page st.skip st.remaining
      ((Scan.readRow? a.filter e).toList ++ st.unread σ (Engine.table s₀))) :
    Read s (st.accept a q s).2.2 ∧ (st.accept a q s).2.1.Steady σ (Engine.table s₀) ∧
      TurnSpec before s₀ (st.accept a q s).1 (st.accept a q s).2.1 := by
  rw [accept]
  cases hpass : Scan.passes a.filter q with
  | false =>
      have hr : Scan.readRow? a.filter e = none := by simp [Scan.readRow?, hd, hpass]
      rw [hr] at howed hcovers
      exact ⟨Read.refl s, ⟨hplaced, fun _ => hwanted, fun _ => hcovers⟩,
        .again ((if_pos hready).trans howed.symm)⟩
  | true =>
      have hr : Scan.readRow? a.filter e = some (.ok q) := by simp [Scan.readRow?, hd, hpass]
      rw [hr, Option.toList_some, List.singleton_append] at howed hcovers
      cases hskip : st.skip with
      | succ skip =>
          rw [hskip, Paging.page_skip hwanted] at howed
          refine ⟨Read.refl s, ⟨hplaced, fun _ => hwanted, fun _ n hn => ?_⟩,
            .again ((if_pos hready).trans howed.symm)⟩
          obtain ⟨hcount, hample⟩ := hcovers n hn
          rw [hskip, Nat.add_right_comm] at hcount hample
          rw [List.length_cons, Nat.add_sub_add_right] at hample
          exact ⟨hcount.imp_right (Nat.le_trans (Nat.le_succ _)), hample⟩
      | zero =>
          rw [hskip, Paging.page_give hwanted] at howed
          simp only [Bool.not_true, Bool.false_eq_true, if_false, Nat.lt_irrefl]
          by_cases hlast : st.remaining.map (· - 1) = some 0
          · -- The last quad of the page: what is left of the scans is not owed any more.
            rw [if_pos hlast]
            rw [hlast, Paging.page_some_zero] at howed
            exact ⟨read_releaseActive _ s, steady_finish (by decide) _ _ s, .give (.quad howed)⟩
          · rw [if_neg hlast]
            refine ⟨Read.refl s, ⟨hplaced, fun _ => hlast, fun _ n hn => ?_⟩,
              .give (.quad (howed.trans ?_))⟩
            · obtain ⟨k, hk, rfl⟩ := Option.map_eq_some_iff.1 hn
              obtain ⟨hcount, hample⟩ := hcovers k hk
              rw [hskip] at hcount hample
              have hless : 0 + (k - 1) ≤ 0 + k := Nat.add_le_add_left (Nat.sub_le k 1) 0
              refine ⟨hcount.imp_right (Nat.le_trans hless), hample.mono ?_⟩
              change 0 + (k - 1) - (st.current σ (Engine.table s₀)).length ≤ _
              rw [List.length_cons]
              omega
            · exact congrArg _ (if_pos hready).symm

theorem advance_spec {a : ActiveScan κ} (hst : st.Steady σ (Engine.table s))
    (hready : st.phase = .ready) (ha : st.active = some a) :
    Read s (st.advance a s).2.2 ∧ (st.advance a s).2.1.Steady σ (Engine.table s) ∧
      TurnSpec st s (st.advance a s).1 (st.advance a s).2.1 := by
  have hcons := hst.consistent a ha
  have hunread : st.unread σ (Engine.table s) =
      a.items σ (Engine.table s) ++ st.pending.flatMap (·.items (Engine.table s)) := by
    rw [unread, current, ha]
    rfl
  have hcovers : st.Covers (Engine.table s) (a.items σ (Engine.table s)) := by
    have hcovers := hst.covers hready
    rwa [current, ha] at hcovers
  have hread : Read s (Engine.next a.cursor s).2.2 :=
    ⟨LawfulEngine.table_next _ s, LawfulEngine.quiet_next _⟩
  rw [advance]
  split
  · next cursor s' hn =>
    rw [hn] at hread
    have hrest := LawfulEngine.rest_of_next_none hn
    refine ⟨hread.trans ⟨LawfulEngine.table_release _ _, LawfulEngine.quiet_release _⟩,
      ⟨?_, hst.wanted, fun _ => ?_⟩, .again ?_⟩
    · rintro b ⟨⟩
    · rwa [ActiveScan.items, hrest] at hcovers
    · rw [owed_of_ready hready, hunread, ActiveScan.items, hrest]
      exact if_pos hready
  · next e cursor s' hn =>
    rw [hn] at hread
    obtain ⟨hloud, reason, rfl⟩ := LawfulEngine.fault_of_next_error hn
    obtain ⟨hturn, hr, hsteady, hphase⟩ := fail_spec { st with active := some { a with cursor } }
      a.indexName (.engine (.injectedFault reason)) (Engine.table s) s'
    exact ⟨hread.trans hr, hsteady, hturn ▸ .give (.fault hloud hphase)⟩
  · next value cursor s' hn =>
    rw [hn] at hread
    obtain ⟨hcons', k, hrest⟩ := LawfulEngine.rest_of_next_ok hcons hn
    let read : ResultStream κ :=
      { st with active := some { a with cursor, rows := a.rows + 1 } }
    have hitems : a.items σ (Engine.table s) =
        (Scan.readRow? a.filter (k, value)).toList ++ read.current σ (Engine.table s) := by
      rw [ActiveScan.items, hrest, List.filterMap_cons]
      cases Scan.readRow? a.filter (k, value) <;> rfl
    have howed : st.owed σ (Engine.table s) = Paging.page st.skip st.remaining
        ((Scan.readRow? a.filter (k, value)).toList ++ read.unread σ (Engine.table s)) := by
      rw [owed_of_ready hready, hunread, hitems, List.append_assoc]
      rfl
    split
    · next f hd =>
      have hr : Scan.readRow? a.filter (k, value) =
          some (.error (.engine (.corruption f.message))) := by
        simp [Scan.readRow?, hd]
      rw [hr, Option.toList_some, List.singleton_append,
        Paging.page_error (hst.wanted hready)] at howed
      obtain ⟨hturn, hr, hsteady, hphase⟩ := read.fail_spec a.indexName
        (.engine (.corruption f.message)) (Engine.table s) s'
      exact ⟨hread.trans hr, hsteady, hturn ▸ .give (.error howed hphase)⟩
    · next q hd =>
      have hplaced : ∀ b, read.active = some b → (place σ b.cursor).Consistent := by
        rintro b ⟨⟩
        exact hcons'
      have haccept := accept_spec (s := s') (a := { a with cursor, rows := a.rows + 1 })
        hplaced hready (hst.wanted hready) (hitems ▸ hcovers) hd howed
      exact ⟨hread.trans haccept.1, haccept.2⟩

/-- Every turn keeps the account. -/
theorem turn_spec (hst : st.Steady σ (Engine.table s)) :
    Read s (st.turn s).2.2 ∧ (st.turn s).2.1.Steady σ (Engine.table s) ∧
      TurnSpec st s (st.turn s).1 (st.turn s).2.1 := by
  rw [turn]
  by_cases hready : st.phase = .ready
  · rw [if_neg (not_not_intro hready)]
    split
    · next a ha => exact advance_spec hst hready ha
    · next scan pending ha hp => exact openScan_spec hst hready ha hp
    · next ha hp =>
      refine ⟨read_releaseActive st s, steady_finish (by decide) _ st s,
        .give (.done ?_ (by decide : Phase.done ≠ .ready))⟩
      simp [owed_of_ready hready, unread, current, ha, hp]
  · rw [if_pos hready]
    exact ⟨Read.refl s, hst, .give (.done (owed_of_not_ready hready _) hready)⟩

/-! ## Polls -/

/-- What is answered after a turn that gave nothing is an answer for the stream before it. -/
theorem Answer.of_again {item : Option Item} {last : ResultStream κ} (hr : Read s s')
    (howed : st'.owed σ (Engine.table s) = st.owed σ (Engine.table s))
    (h : Answer st' s' item last) : Answer st s item last := by
  cases h with
  | quad ho =>
      rw [hr.table] at ho
      exact .quad (howed ▸ ho)
  | error ho hs =>
      rw [hr.table] at ho
      exact .error (howed ▸ ho) hs
  | fault hl hs => exact .fault (fun hq => hl (hr.quiet hq)) hs
  | done ho hs =>
      rw [hr.table] at ho
      exact .done (howed ▸ ho) hs

theorem Polled.spec {out : Option Item × ResultStream κ × σ} (h : Polled st s out)
    (hst : st.Steady σ (Engine.table s)) :
    Read s out.2.2 ∧ out.2.1.Steady σ (Engine.table s) ∧ Answer st s out.1 out.2.1 := by
  induction h with
  | @answer st _ s _ _ heq =>
      obtain ⟨hread, hsteady, hturn⟩ := turn_spec hst
      rw [heq] at hread hsteady hturn
      cases hturn with
      | give hanswer => exact ⟨hread, hsteady, hanswer⟩
  | @again st _ s _ _ heq _ ih =>
      obtain ⟨hread, hsteady, hturn⟩ := turn_spec hst
      rw [heq] at hread hsteady hturn
      cases hturn with
      | again howed =>
          dsimp only at hread hsteady
          rw [← hread.table] at hsteady
          obtain ⟨hread', hsteady', hanswer⟩ := ih hsteady
          rw [hread.table] at hsteady'
          exact ⟨hread.trans hread', hsteady', hanswer.of_again hread howed⟩

theorem poll_spec (hst : st.Steady σ (Engine.table s)) :
    Read s (st.poll s).2.2 ∧ (st.poll s).2.1.Steady σ (Engine.table s) ∧
      Answer st s (st.poll s).1 (st.poll s).2.1 :=
  (polled hst.placed s).spec hst

/-! ## All items -/

/-- The items that came are those that were owed, or a fault came before the rest of them. -/
inductive Delivered (quiet : Prop) (owed : List Item) : List Item → Prop
  | whole : Delivered quiet owed owed
  | cut {given rest : List Item} {reason : String} (loud : ¬ quiet)
      (split : owed = given ++ rest) :
      Delivered quiet owed (given ++ [.error (.engine (.injectedFault reason))])

theorem Delivered.cons {quiet : Prop} {owed items : List Item} (h : Delivered quiet owed items)
    (item : Item) : Delivered quiet (item :: owed) (item :: items) := by
  cases h with
  | whole => exact .whole
  | @cut given rest reason hl hs =>
      exact @cut _ _ (item :: given) rest reason hl (congrArg _ hs)

theorem Delivered.mono {quiet quiet' : Prop} {owed items : List Item}
    (h : Delivered quiet' owed items) (hq : quiet → quiet') : Delivered quiet owed items := by
  cases h with
  | whole => exact .whole
  | cut hl hs => exact .cut (fun h => hl (hq h)) hs

theorem Drained.spec {out : List Item × ResultStream κ × σ} (h : Drained st s out)
    (hst : st.Steady σ (Engine.table s)) :
    Read s out.2.2 ∧ Delivered (Quiet s) (st.owed σ (Engine.table s)) out.1 := by
  induction h with
  | ended hlast =>
      obtain ⟨hread, -, hanswer⟩ := hlast.spec hst
      cases hanswer with
      | done howed _ => exact ⟨hread, howed ▸ .whole⟩
  | failed hlast =>
      obtain ⟨hread, -, hanswer⟩ := hlast.spec hst
      cases hanswer with
      | error howed _ => exact ⟨hread, howed ▸ .whole⟩
      | fault hloud _ => exact ⟨hread, @Delivered.cut _ _ [] _ _ hloud rfl⟩
  | gave hfirst _ ih =>
      obtain ⟨hread, hsteady, hanswer⟩ := hfirst.spec hst
      dsimp only at hread hsteady hanswer
      cases hanswer with
      | quad howed =>
          rw [← hread.table] at hsteady
          obtain ⟨hread', hdelivered⟩ := ih hsteady
          rw [howed, ← hread.table]
          exact ⟨hread.trans hread', (hdelivered.mono hread.quiet).cons _⟩

theorem mapM_id_append_error (qs : List Quad) (e : QueryError) :
    (qs.map Except.ok ++ [Except.error e]).mapM id = .error e := by
  induction qs with
  | nil => rfl
  | cons q qs ih =>
      rw [List.map_cons, List.cons_append, List.mapM_cons, ih]
      rfl

theorem mapM_id_map_ok (qs : List Quad) : (qs.map Except.ok : List Item).mapM id = .ok qs := by
  induction qs with
  | nil => rfl
  | cons q qs ih =>
      rw [List.map_cons, List.mapM_cons, ih]
      rfl

theorem collect_spec {qs : List Quad} (hst : st.Steady σ (Engine.table s))
    (howed : st.owed σ (Engine.table s) = qs.map .ok) :
    Read s (st.collect s).2 ∧
      ((st.collect s).1 = .ok qs ∨
        ¬ Quiet s ∧ ∃ reason, (st.collect s).1 = .error (.engine (.injectedFault reason))) := by
  obtain ⟨hread, hdelivered⟩ := (drained hst.placed s).spec hst
  refine ⟨hread, ?_⟩
  rw [howed] at hdelivered
  change (st.drain s).1.mapM id = _ ∨ _ ∧ ∃ reason, (st.drain s).1.mapM id = _
  generalize (st.drain s).1 = items at hdelivered ⊢
  cases hdelivered with
  | whole => exact .inl (mapM_id_map_ok qs)
  | cut hloud hsplit =>
      obtain ⟨ps, _, -, rfl, -⟩ := List.map_eq_append_iff.1 hsplit
      exact .inr ⟨hloud, _, mapM_id_append_error ps _⟩

/-! ## New streams -/

theorem steady_ofScans {scans : List Scan} {paging : Paging} {t : Table}
    (hcount : t.size ≤ Paging.maxCount ∨
      ∀ n, paging.limit = some n → paging.offset + n ≤ Paging.maxCount)
    (hample : ∀ n, paging.limit = some n → Scan.Ample t (paging.offset + n) scans) :
    (ofScans scans paging : ResultStream κ).Steady σ t := by
  rw [ofScans]
  split
  · exact ⟨nofun, nofun, nofun⟩
  · next hwanted =>
    exact ⟨nofun, fun _ => hwanted, fun _ n hn =>
      ⟨hcount.imp_right fun hshort => hshort n hn, hample n hn⟩⟩

theorem owed_ofScans_eq (scans : List Scan) (paging : Paging) (t : Table) :
    (ofScans scans paging : ResultStream κ).owed σ t =
      Paging.page paging.offset paging.limit (scans.flatMap (·.items t)) := by
  rw [ofScans]
  split
  · next hzero =>
    rw [hzero, Paging.page_some_zero]
    rfl
  · rfl

theorem owed_ofScans {scans : List Scan} {paging : Paging} {t : Table} {qs : List Quad}
    (h : scans.flatMap (·.items t) = qs.map .ok) :
    (ofScans scans paging : ResultStream κ).owed σ t = (paging.slice qs).map .ok := by
  rw [owed_ofScans_eq, h, Paging.page_map_ok]

end ResultStream
end QuadIndex
