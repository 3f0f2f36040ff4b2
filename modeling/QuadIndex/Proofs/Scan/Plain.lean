import Mathlib.Data.List.Basic
import QuadIndex.Proofs.Scan.Delivery
import QuadIndex.Proofs.Table.Traversal

/-! # Streams and a plain reader

A stream asks no cursor for more rows than its page can reach. A plain reader leaves every range as
it is given, reads all of its rows, filters them, and pages what is left. Both give the same items:
the cap of a cursor saves reading and does nothing else. -/

namespace QuadIndex

/-- The items of a plain reader, which opens every scan with its range as it is given. -/
def plainItems (t : Table) (scans : List Scan) (p : Paging) : List Item :=
  Paging.page p.offset p.limit
    (scans.flatMap fun s => (t.scan s.range).filterMap (Scan.readRow? s.filter))

theorem plainItems_eq (t : Table) (scans : List Scan) (p : Paging) :
    plainItems t scans p = Paging.page p.offset p.limit (scans.flatMap (·.items t)) := by
  have hitems : ∀ s : Scan, (t.scan s.range).filterMap (Scan.readRow? s.filter) = s.items t := by
    intro s
    rw [Scan.items, Table.scan_eq]
  simp only [plainItems, hitems]

namespace Paging

/-- Items that no page comes to may as well be left out. -/
theorem page_page (skip : Nat) (remaining : Option Nat) (items : List Item) :
    page skip remaining (page 0 none items) = page skip remaining items := by
  have hnone : (none : Option Nat) ≠ some 0 := nofun
  induction items generalizing skip remaining with
  | nil => rw [page_nil]
  | cons item items ih =>
      by_cases hzero : remaining = some 0
      · rw [hzero, page_some_zero, page_some_zero]
      · cases item with
        | error e => rw [page_error hnone, page_error hzero, page_error hzero]
        | ok q =>
            rw [page_give hnone, Option.map_none]
            cases skip with
            | zero => rw [page_give hzero, page_give hzero, ih]
            | succ skip => rw [page_skip hzero, page_skip hzero, ih]

theorem page_eq_slice {p : Paging} {items : List Item} {qs : List Quad}
    (h : page 0 none items = qs.map .ok) :
    page p.offset p.limit items = (p.slice qs).map .ok := by
  rw [← page_page, h, page_map_ok]

end Paging

namespace ResultStream

open LawfulEngine (Quiet)

variable {σ κ : Type} [Engine σ κ] [LawfulEngine σ κ] {s : σ}

theorem drain_eq_owed {st : ResultStream κ} (hquiet : Quiet s)
    (hst : st.Steady σ (Engine.table s)) : (st.drain s).1 = st.owed σ (Engine.table s) := by
  obtain ⟨-, hdelivered⟩ := (drained hst.placed s).spec hst
  generalize st.owed σ (Engine.table s) = owed, (st.drain s).1 = items at hdelivered ⊢
  cases hdelivered with
  | whole => rfl
  | cut hloud => exact absurd hquiet hloud

/-- The items of a stream are those of a plain reader, and its page is the page of the items that
would come without one: an undecodable row ends both with its error, also where it would be passed
over, and a result without such a row is sliced. A limit of its own must not cut off what is wanted
of a scan that every row passes. Counts have 64 bits, so no more rows than these count may be both
stored and reached. -/
theorem drain_eq_plain (scans : List Scan) (paging : Paging) (hquiet : Quiet s)
    (hcount : (Engine.table s).size ≤ Paging.maxCount ∨
      ∀ n, paging.limit = some n → paging.offset + n ≤ Paging.maxCount)
    (hample : ∀ n, paging.limit = some n →
      Scan.Ample (Engine.table s) (paging.offset + n) scans) :
    let items (p : Paging) := ((ofScans scans p : ResultStream κ).drain s).1
    items paging = plainItems (Engine.table s) scans paging ∧
      items {} = plainItems (Engine.table s) scans {} ∧
      items paging = Paging.page paging.offset paging.limit (items {}) ∧
      ∀ qs, items {} = qs.map .ok → items paging = (paging.slice qs).map .ok := by
  intro items
  have howed (p : Paging) : (ofScans scans p : ResultStream κ).owed σ (Engine.table s) =
      plainItems (Engine.table s) scans p := by
    rw [plainItems_eq, owed_ofScans_eq]
  have hpaged : items paging = plainItems (Engine.table s) scans paging :=
    howed paging ▸ drain_eq_owed hquiet (steady_ofScans hcount hample)
  have hwhole : items {} = plainItems (Engine.table s) scans {} :=
    howed {} ▸ drain_eq_owed hquiet (steady_ofScans (.inr nofun) nofun)
  refine ⟨hpaged, hwhole, ?_, fun qs hqs => ?_⟩
  · rw [hpaged, hwhole, plainItems_eq, plainItems_eq, Paging.page_page]
  · rw [hwhole, plainItems_eq] at hqs
    rw [hpaged, plainItems_eq, Paging.page_eq_slice hqs]

/-- The second of two quads, by scans for one row each. Their limits are below what the page
reaches, but the first scan has no other row, and after it no more than one is wanted. -/
theorem drain_eq_plain_second :
    let t := (Table.empty.insert [0] (Record.encode ⟨"s", "p", "o", "g"⟩)).insert [1]
      (Record.encode ⟨"t", "p", "o", "g"⟩)
    let scans : List Scan := [⟨"SPOG", ⟨.unbounded, .exclusive [1], some 1⟩, none⟩,
      ⟨"SPOG", ⟨.inclusive [1], .unbounded, some 1⟩, none⟩]
    let items (p : Paging) := ((ofScans scans p : ResultStream Cursor).drain t).1
    items {} = [.ok ⟨"s", "p", "o", "g"⟩, .ok ⟨"t", "p", "o", "g"⟩] ∧
      Scan.Ample t 2 scans ∧
      items ⟨1, some 1⟩ = plainItems t scans ⟨1, some 1⟩ ∧
      items ⟨1, some 1⟩ = [.ok ⟨"t", "p", "o", "g"⟩] := by
  intro t scans items
  have hfirst : (scans[0].rows t).length ≤ 1 := by decide +kernel
  have hone : 2 - (scans[0].items t).length ≤ 1 := by decide +kernel
  have hample : Scan.Ample t 2 scans := by
    refine ⟨?_, ?_, trivial⟩
    · rintro - c ⟨⟩
      exact .inr hfirst
    · rintro - c ⟨⟩
      exact .inl hone
  have hwhole : items {} = [.ok ⟨"s", "p", "o", "g"⟩, .ok ⟨"t", "p", "o", "g"⟩] := by
    decide +kernel
  have hquiet : Quiet t := trivial
  obtain ⟨hplain, -, -, hslice⟩ := drain_eq_plain scans ⟨1, some 1⟩ hquiet (.inl (by decide))
    (by rintro n ⟨⟩; exact hample)
  exact ⟨hwhole, hample, hplain, hslice [⟨"s", "p", "o", "g"⟩, ⟨"t", "p", "o", "g"⟩] hwhole⟩

/-- The cap of a page takes the place of a smaller limit of the scan, and an undecodable row is not
passed over. -/
theorem drain_ne_slice :
    (let t := (Table.empty.insert [0] (Record.encode ⟨"s", "p", "o", "g"⟩)).insert [1]
        (Record.encode ⟨"t", "p", "o", "g"⟩)
      let scan : Scan := ⟨"SPOG", ⟨.unbounded, .unbounded, some 1⟩, none⟩
      ((ofScans [scan] ⟨0, some 2⟩ : ResultStream Cursor).drain t).1 ≠
        plainItems t [scan] ⟨0, some 2⟩) ∧
      let t := Table.empty.insert [0] []
      let scan : Scan := ⟨"SPOG", ⟨.unbounded, .unbounded, none⟩, none⟩
      let items (p : Paging) := ((ofScans [scan] p : ResultStream Cursor).drain t).1
      items ⟨1, none⟩ ≠ Paging.slice ⟨1, none⟩ (items {}) := by
  decide +kernel

end ResultStream
end QuadIndex
