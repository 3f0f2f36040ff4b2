import QuadIndex.Proofs.Engine.Lawful
import QuadIndex.Proofs.Index.KeySpace
import QuadIndex.Proofs.Record.RoundTrip
import QuadIndex.Proofs.Store.Content
import QuadIndex.Proofs.Table.Contents
import QuadIndex.Store.Basic

/-! # Stores that mirror a model

A store mirrors a model if its table holds every quad of the model under every index of the
registry, and nothing else. -/

namespace QuadIndex

def Index.entry (i : Index) (q : Quad) : Entry := (i.key q, Record.encode q)

/-- The table holds the entries of the quads under all of the indexes, and no others. -/
def Table.Holds (t : Table) (is : List Index) (qs : List Quad) : Prop :=
  ∀ e, e ∈ t.entries ↔ ∃ q ∈ qs, ∃ i ∈ is, e = i.entry q

/-- Among the keys that begin with the name of one of the indexes, the table holds the entries of
the quads under that index and no others. Whatever it holds under other names does not matter. -/
def Table.Shows (t : Table) (is : List Index) (qs : List Quad) : Prop :=
  ∀ i ∈ is, ∀ e : Entry, i.Owns e.1 → (e ∈ t.entries ↔ ∃ q ∈ qs, e = i.entry q)

/-! ## Indexes of a registry -/

theorem Index.eq_of_name_eq {is : List Index} (hd : (is.map Index.name).Nodup) {i j : Index}
    (hi : i ∈ is) (hj : j ∈ is) (h : i.name = j.name) : i = j := by
  induction is with
  | nil => contradiction
  | cons k is ih =>
      rw [List.map_cons, List.nodup_cons] at hd
      have other {l : Index} (hl : l ∈ is) : k.name ≠ l.name := fun hn =>
        hd.1 (List.mem_map.2 ⟨l, hl, hn.symm⟩)
      rcases List.mem_cons.1 hi with rfl | hi'
      · rcases List.mem_cons.1 hj with rfl | hj'
        · rfl
        · exact absurd h (other hj')
      · rcases List.mem_cons.1 hj with rfl | hj'
        · exact absurd h.symm (other hi')
        · exact ih hd.2 hi' hj'

/-- Within a registry, a key tells both its index and its quad. -/
theorem Index.entry_eq_of_key_eq {is : List Index} (hd : (is.map Index.name).Nodup) {i j : Index}
    {p q : Quad} (hi : i ∈ is) (hj : j ∈ is) (hp : p.fault? = none) (hq : q.fault? = none)
    (h : i.key p = j.key q) : i = j ∧ p = q := by
  obtain rfl := eq_of_name_eq hd hi hj (name_eq_of_key_eq h)
  exact ⟨rfl, key_inj hp hq h⟩

theorem Table.Holds.shows {t : Table} {is : List Index} {qs : List Quad} (h : t.Holds is qs)
    (hd : (is.map Index.name).Nodup) : t.Shows is qs := by
  intro i hi e howns
  rw [h e]
  constructor
  · rintro ⟨q, hq, j, hj, rfl⟩
    obtain rfl := Index.eq_of_name_eq hd hi hj (Index.name_eq_of_owns howns (j.owns_key q))
    exact ⟨q, hq, rfl⟩
  · rintro ⟨q, hq, rfl⟩
    exact ⟨q, hq, i, hi, rfl⟩

/-! ## Batches of a store -/

namespace Table

variable {t : Table} {is : List Index} {ps qs : List Quad} {e : Entry}

theorem mem_apply_erasures (t : Table) (is : List Index) (qs : List Quad) :
    e ∈ (t.apply (Store.erasures is qs)).entries ↔
      e ∈ t.entries ∧ ∀ q ∈ qs, ∀ i ∈ is, e.1 ≠ i.key q := by
  have hb : Store.erasures is qs = (qs.flatMap fun q => is.map fun i => i.key q).map .erase := by
    rw [Store.erasures, List.map_flatMap]
    simp only [List.map_map]
    rfl
  rw [hb, mem_apply_erasures_iff]
  simp only [List.mem_flatMap, List.mem_map, not_exists, not_and, ne_eq, eq_comm]

theorem mem_apply_insertions (t : Table) (hd : (is.map Index.name).Nodup)
    (hq : ∀ q ∈ qs, q.fault? = none) :
    e ∈ (t.apply (Store.insertions is qs)).entries ↔
      (∃ q ∈ qs, ∃ i ∈ is, e = i.entry q) ∨
        e ∈ t.entries ∧ ∀ q ∈ qs, ∀ i ∈ is, e.1 ≠ i.key q := by
  have hb : Store.insertions is qs =
      (qs.flatMap fun q => is.map fun i => i.entry q).map fun x => .put x.1 x.2 := by
    rw [Store.insertions, List.map_flatMap]
    simp only [List.map_map]
    rfl
  have hmem {x : Entry} : x ∈ (qs.flatMap fun q => is.map fun i => i.entry q) ↔
      ∃ q ∈ qs, ∃ i ∈ is, x = i.entry q := by
    simp only [List.mem_flatMap, List.mem_map, eq_comm]
  rw [hb, mem_apply_insertions_iff, hmem]
  · refine or_congr_right (and_congr_right fun _ => ?_)
    constructor
    · intro h q hq i hi
      exact h (i.entry q) (hmem.2 ⟨q, hq, i, hi, rfl⟩)
    · intro h x hx
      obtain ⟨q, hq, i, hi, rfl⟩ := hmem.1 hx
      exact h q hq i hi
  · -- A key tells its index and its quad, so no two insertions disagree about its value.
    intro x hx y hy hxy
    obtain ⟨p, hp, i, hi, rfl⟩ := hmem.1 hx
    obtain ⟨r, hr, j, hj, rfl⟩ := hmem.1 hy
    obtain ⟨rfl, rfl⟩ := Index.entry_eq_of_key_eq hd hi hj (hq p hp) (hq r hr) hxy
    rfl

theorem Holds.erasures (h : t.Holds is ps) (hd : (is.map Index.name).Nodup)
    (hp : ∀ p ∈ ps, p.fault? = none) (hq : ∀ q ∈ qs, q.fault? = none) {rs : List Quad}
    (hrs : ∀ r, r ∈ rs ↔ r ∈ ps ∧ r ∉ qs) : (t.apply (Store.erasures is qs)).Holds is rs := by
  intro e
  rw [mem_apply_erasures, h e]
  constructor
  · rintro ⟨⟨p, hps, i, hi, rfl⟩, hne⟩
    exact ⟨p, (hrs p).2 ⟨hps, fun hqs => hne p hqs i hi rfl⟩, i, hi, rfl⟩
  · rintro ⟨r, hr, i, hi, rfl⟩
    obtain ⟨hps, hqs⟩ := (hrs r).1 hr
    refine ⟨⟨r, hps, i, hi, rfl⟩, fun q hm j hj hk => hqs ?_⟩
    exact (Index.entry_eq_of_key_eq hd hi hj (hp r hps) (hq q hm) hk).2 ▸ hm

theorem Holds.insertions (h : t.Holds is ps) (hd : (is.map Index.name).Nodup)
    (hp : ∀ p ∈ ps, p.fault? = none) (hq : ∀ q ∈ qs, q.fault? = none) {rs : List Quad}
    (hrs : ∀ r, r ∈ rs ↔ r ∈ qs ∨ r ∈ ps) : (t.apply (Store.insertions is qs)).Holds is rs := by
  intro e
  rw [mem_apply_insertions t hd hq, h e]
  constructor
  · rintro (⟨q, hm, i, hi, rfl⟩ | ⟨⟨p, hps, i, hi, rfl⟩, -⟩)
    · exact ⟨q, (hrs q).2 (.inl hm), i, hi, rfl⟩
    · exact ⟨p, (hrs p).2 (.inr hps), i, hi, rfl⟩
  · rintro ⟨r, hr, i, hi, rfl⟩
    by_cases hm : r ∈ qs
    · exact .inl ⟨r, hm, i, hi, rfl⟩
    · have hps : r ∈ ps := ((hrs r).1 hr).resolve_left hm
      refine .inr ⟨⟨r, hps, i, hi, rfl⟩, fun q hmq j hj hk => hm ?_⟩
      exact (Index.entry_eq_of_key_eq hd hi hj (hp r hps) (hq q hmq) hk).2 ▸ hmq

theorem Holds.extend (h : t.Holds is ps) {i : Index} (hd : ((is ++ [i]).map Index.name).Nodup)
    (hp : ∀ p ∈ ps, p.fault? = none) (hqs : ∀ q, q ∈ qs ↔ q ∈ ps) :
    (t.apply (Store.insertions [i] qs)).Holds (is ++ [i]) ps := by
  intro e
  rw [mem_apply_insertions t (by simp) fun q hm => hp q ((hqs q).1 hm), h e]
  have hi : i ∈ is ++ [i] := List.mem_append_right is List.mem_cons_self
  constructor
  · rintro (⟨q, hm, j, hj, rfl⟩ | ⟨⟨p, hps, j, hj, rfl⟩, -⟩)
    · exact ⟨q, (hqs q).1 hm, j, List.mem_append_right is hj, rfl⟩
    · exact ⟨p, hps, j, List.mem_append_left [i] hj, rfl⟩
  · rintro ⟨p, hps, j, hj, rfl⟩
    by_cases hji : j = i
    · exact .inl ⟨p, (hqs p).2 hps, j, hji ▸ List.mem_cons_self, rfl⟩
    · have hjs : j ∈ is := (List.mem_append.1 hj).resolve_right fun hm =>
        hji (List.mem_singleton.1 hm)
      refine .inr ⟨⟨p, hps, j, hjs, rfl⟩, fun q hm k hk he => hji ?_⟩
      rw [List.mem_singleton.1 hk] at he
      exact (Index.entry_eq_of_key_eq hd hj hi (hp p hps) (hp q ((hqs q).1 hm)) he).1

end Table

/-! ## Outcomes -/

namespace Outcome

variable {σ α : Type} {o : Outcome σ α} {P P' : α → Store σ → Prop}
  {Q Q' : StoreError → Store σ → Prop}

/-- A success that meets `P`, or a failure that meets `Q`. -/
def Meets (o : Outcome σ α) (P : α → Store σ → Prop) (Q : StoreError → Store σ → Prop) : Prop :=
  match o with
  | (.ok a, st) => P a st
  | (.error e, st) => Q e st

theorem Meets.imp (h : o.Meets P Q) (hP : ∀ a st, P a st → P' a st)
    (hQ : ∀ e st, Q e st → Q' e st) : o.Meets P' Q' := by
  obtain ⟨r, st⟩ := o
  cases r with
  | ok a => exact hP a st h
  | error e => exact hQ e st h

/-- What holds of the store after it holds in either case. -/
theorem Meets.and_store {R : Store σ → Prop} (h : o.Meets P Q) (hR : R o.2) :
    o.Meets (fun a st => P a st ∧ R st) (fun e st => Q e st ∧ R st) := by
  obtain ⟨r, st⟩ := o
  cases r with
  | ok a => exact ⟨h, hR⟩
  | error e => exact ⟨h, hR⟩

theorem Meets.ok_or_error (h : o.Meets P Q) :
    (∃ a, o.1 = .ok a ∧ P a o.2) ∨ ∃ e, o.1 = .error e ∧ Q e o.2 := by
  obtain ⟨r, st⟩ := o
  cases r with
  | ok a => exact .inl ⟨a, rfl, h⟩
  | error e => exact .inr ⟨e, rfl, h⟩

theorem Meets.of_ok (h : o.Meets P Q) {a : α} (ho : o.1 = .ok a) : P a o.2 := by
  obtain ⟨r, st⟩ := o
  obtain rfl : r = .ok a := ho
  exact h

theorem Meets.of_error (h : o.Meets P Q) {e : StoreError} (ho : o.1 = .error e) : Q e o.2 := by
  obtain ⟨r, st⟩ := o
  obtain rfl : r = .error e := ho
  exact h

end Outcome

namespace Store

/-! ## Normalized quads -/

theorem normalize_eq_ok_iff {context : String} {q r : Quad} :
    normalize context q = .ok r ↔ r = fillContext context q ∧ r.fault? = none := by
  rw [normalize]
  split
  · next f hf =>
    refine ⟨nofun, ?_⟩
    rintro ⟨rfl, hr⟩
    rw [hf] at hr
    contradiction
  · next hf =>
    rw [Except.ok.injEq]
    constructor
    · rintro rfl
      exact ⟨rfl, hf⟩
    · exact fun h => h.1.symm

/-- A storable quad stays so when it gets a storable context. -/
theorem fault?_fillContext {context : String} (hc : Quad.fault? ⟨"", "", "", context⟩ = none)
    {q : Quad} (hq : q.fault? = none) : (fillContext context q).fault? = none := by
  rw [fillContext]
  split
  · rw [Quad.fault?_eq_none_iff] at hc hq ⊢
    intro t
    cases t with
    | subject => exact hq .subject
    | predicate => exact hq .predicate
    | object => exact hq .object
    | context => exact hc .context
  · exact hq

theorem normalizeAll_eq_ok_iff {context : String} {qs rs : List Quad} :
    normalizeAll context qs = .ok rs ↔
      rs = qs.map (fillContext context) ∧ ∀ r ∈ rs, r.fault? = none := by
  induction qs generalizing rs with
  | nil =>
      rw [normalizeAll, Except.ok.injEq, List.map_nil, eq_comm]
      exact (and_iff_left_of_imp fun h => by simp [h]).symm
  | cons q qs ih =>
      simp only [normalizeAll, bind_eq_ok_iff, normalize_eq_ok_iff, ih]
      constructor
      · rintro ⟨r, ⟨rfl, hr⟩, rs', ⟨rfl, hrs⟩, h⟩
        obtain rfl := Except.ok.inj h
        exact ⟨rfl, List.forall_mem_cons.2 ⟨hr, hrs⟩⟩
      · rintro ⟨rfl, h⟩
        rw [List.map_cons, List.forall_mem_cons] at h
        exact ⟨_, ⟨rfl, h.1⟩, _, ⟨rfl, h.2⟩, rfl⟩

variable {σ κ : Type}

theorem batch_eq_ok_iff {st : Store σ} {old new : List Quad} {b : Batch} :
    st.batch old new = .ok b ↔
      (∀ q ∈ old.map (fillContext st.defaultContext), q.fault? = none) ∧
      (∀ q ∈ new.map (fillContext st.defaultContext), q.fault? = none) ∧
      b = erasures st.registry.indexes (old.map (fillContext st.defaultContext)) ++
        insertions st.registry.indexes (new.map (fillContext st.defaultContext)) := by
  simp only [batch, bind_eq_ok_iff, normalizeAll_eq_ok_iff]
  constructor
  · rintro ⟨os, ⟨rfl, hos⟩, ns, ⟨rfl, hns⟩, h⟩
    exact ⟨hos, hns, (Except.ok.inj h).symm⟩
  · rintro ⟨hos, hns, rfl⟩
    exact ⟨_, ⟨rfl, hos⟩, _, ⟨rfl, hns⟩, rfl⟩

/-! ## Mirrors -/

/-- A store and the model whose quads it holds. -/
structure Mirrors [Engine σ κ] (st : Store σ) (m : Model) : Prop where
  defaultContext : m.defaultContext = st.defaultContext
  ascending : Quad.Ascending m.quads
  storable : ∀ q ∈ m.quads, q.fault? = none
  filled : ∀ q ∈ m.quads, m.stored q = q
  holds : (Engine.table st.engine).Holds st.registry.indexes m.quads

/-- A store that shows the quads of a model, perhaps amid keys that none of its indexes wrote. -/
structure Shows [Engine σ κ] (st : Store σ) (m : Model) : Prop where
  ascending : Quad.Ascending m.quads
  storable : ∀ q ∈ m.quads, q.fault? = none
  table : (Engine.table st.engine).Shows st.registry.indexes m.quads

theorem Mirrors.shows [Engine σ κ] {st : Store σ} {m : Model} (h : st.Mirrors m) : st.Shows m :=
  ⟨h.ascending, h.storable, h.holds.shows st.registry.distinct⟩

/-- Another state of a store, after its engine has worked. -/
structure Kept (st st' : Store σ) : Prop where
  registry : st'.registry = st.registry
  defaultContext : st'.defaultContext = st.defaultContext

theorem Kept.refl (st : Store σ) : Kept st st := ⟨rfl, rfl⟩

theorem Kept.trans {st st' st'' : Store σ} (h : Kept st st') (h' : Kept st' st'') :
    Kept st st'' :=
  ⟨h'.registry.trans h.registry, h'.defaultContext.trans h.defaultContext⟩

section Write

variable [Engine σ κ] {st st' : Store σ} {m : Model}

theorem Mirrors.of_kept (h : st.Mirrors m) (hk : Kept st st')
    (ht : Engine.table st'.engine = Engine.table st.engine) : st'.Mirrors m := by
  refine ⟨h.defaultContext.trans hk.defaultContext.symm, h.ascending, h.storable, h.filled, ?_⟩
  rw [hk.registry, ht]
  exact h.holds

/-- The table has an entry under the key of the quad, and its record is the quad. -/
def HoldsUnder (st : Store σ) (i : Index) (q : Quad) : Prop :=
  ∃ e ∈ (Engine.table st.engine).entries, e.1 = i.key q ∧ Record.decode e.2 = .ok q

theorem Mirrors.holdsUnder_iff (h : st.Mirrors m) {i : Index} (hi : i ∈ st.registry.indexes)
    {q : Quad} : st.HoldsUnder i q ↔ q ∈ m.quads := by
  constructor
  · rintro ⟨e, he, -, hdecode⟩
    obtain ⟨p, hp, j, -, rfl⟩ := (h.holds e).1 he
    rw [Index.entry, Record.decode_encode_of_storable (h.storable p hp)] at hdecode
    exact Except.ok.inj hdecode ▸ hp
  · intro hq
    exact ⟨i.entry q, (h.holds _).2 ⟨q, hq, i, hi, rfl⟩, rfl,
      Record.decode_encode_of_storable (h.storable q hq)⟩

/-- The model of a store is determined by its table. -/
theorem Mirrors.unique {m' : Model} (h : st.Mirrors m) (h' : st.Mirrors m') : m' = m := by
  have hfirst : st.registry.first ∈ st.registry.indexes := List.head_mem _
  have hsame (q : Quad) : q ∈ m'.quads ↔ q ∈ m.quads :=
    (h'.holdsUnder_iff hfirst).symm.trans (h.holdsUnder_iff hfirst)
  have hquads : m'.quads = m.quads :=
    h'.ascending.eq_of_mem_iff h.ascending hsame
  cases m
  cases m'
  simp only [Model.mk.injEq]
  exact ⟨hquads, h'.defaultContext.trans h.defaultContext.symm⟩

theorem Mirrors.stored_eq (h : st.Mirrors m) : m.stored = fillContext st.defaultContext := by
  funext q
  rw [← h.defaultContext]
  obtain ⟨s, p, o, c⟩ := q
  by_cases hc : c = "" <;> simp [Model.stored, fillContext, hc]

/-- A write that succeeds moves the store as it moves the model: removals before insertions. -/
theorem Mirrors.of_apply (h : st.Mirrors m) {old new : List Quad} {b : Batch}
    (hb : st.batch old new = .ok b) (hk : Kept st st')
    (ht : Engine.table st'.engine = (Engine.table st.engine).apply b) :
    st'.Mirrors ((m.erase old).put new) := by
  obtain ⟨hold, hnew, rfl⟩ := batch_eq_ok_iff.1 hb
  rw [← h.stored_eq] at hold hnew ht
  have hmem {q : Quad} : q ∈ ((m.erase old).put new).quads ↔
      q ∈ new.map m.stored ∨ q ∈ (m.erase old).quads := Model.mem_put_iff
  have herased : ∀ q ∈ (m.erase old).quads, q.fault? = none := fun q hq =>
    h.storable q (Model.mem_erase_iff.1 hq).1
  refine ⟨h.defaultContext.trans hk.defaultContext.symm,
    Model.ascending_put (Model.ascending_erase h.ascending old) new, ?_, ?_, ?_⟩
  · intro q hq
    exact (hmem.1 hq).elim (hnew q) (herased q)
  · intro q hq
    rcases hmem.1 hq with hq | hq
    · obtain ⟨p, -, rfl⟩ := List.mem_map.1 hq
      exact m.stored_stored p
    · exact h.filled q (Model.mem_erase_iff.1 hq).1
  · rw [hk.registry, ht, Table.apply_append]
    exact (h.holds.erasures st.registry.distinct h.storable hold fun q =>
      Model.mem_erase_iff).insertions st.registry.distinct herased hnew fun q => hmem

theorem engine_submit (st : Store σ) (b : Batch) :
    (st.submit b).2.engine = st.engine ∨
      (st.submit b).2.engine = (Engine.write b st.engine).2 := by
  rw [submit]
  split
  · exact .inl rfl
  · refine .inr ?_
    split
    · next engine hw => rw [hw]
    · next e engine hw => rw [hw]

theorem engine_patch (st : Store σ) (old new : List Quad) :
    (st.patch old new).2.engine = st.engine ∨
      ∃ b, (st.patch old new).2.engine = (Engine.write b st.engine).2 := by
  rw [patch]
  split
  · exact .inl rfl
  · next b _ => exact (st.engine_submit b).imp_right fun h => ⟨b, h⟩

variable [LawfulEngine σ κ]

/-- A batch is applied, or nothing happens. -/
theorem submit_meets (st : Store σ) (b : Batch) :
    (st.submit b).Meets
      (fun _ st' => Kept st st' ∧
        Engine.table st'.engine = (Engine.table st.engine).apply b)
      (fun _ st' => Kept st st' ∧ Engine.table st'.engine = Engine.table st.engine) := by
  rw [submit]
  split
  · next hb =>
    rw [List.isEmpty_iff.1 hb]
    exact ⟨Kept.refl st, rfl⟩
  · split
    · next engine hw => exact ⟨⟨rfl, rfl⟩, LawfulEngine.table_of_write_ok hw⟩
    · next e engine hw => exact ⟨⟨rfl, rfl⟩, LawfulEngine.table_of_write_error hw⟩

/-- A write moves the model, or leaves it as it is. -/
theorem Mirrors.patch_meets (h : st.Mirrors m) (old new : List Quad) :
    (st.patch old new).Meets
      (fun _ st' => Kept st st' ∧ st'.Mirrors ((m.erase old).put new))
      (fun _ st' => Kept st st' ∧ st'.Mirrors m) := by
  rw [patch]
  split
  · exact ⟨Kept.refl st, h⟩
  · next b hb =>
    refine (st.submit_meets b).imp ?_ ?_
    · rintro _ st' ⟨hk, ht⟩
      exact ⟨hk, h.of_apply hb hk ht⟩
    · rintro _ st' ⟨hk, ht⟩
      exact ⟨hk, h.of_kept hk ht⟩

end Write
end Store
end QuadIndex
