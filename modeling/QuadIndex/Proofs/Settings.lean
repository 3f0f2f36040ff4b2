import QuadIndex.Proofs.Index.Codes
import QuadIndex.Proofs.Text.Pieces
import QuadIndex.Settings
import QuadIndex.Store.Basic

/-! # What settings can be loaded

A list of orders is read whatever the case of its letters and the blanks around its codes, and what
was read can be written with the names of the orders and read again. -/

namespace QuadIndex.Settings

open Text (PiecesOf IsKernel isBlank)

/-! ## Lists of orders -/

/-- Between the commas of the text stand the words, in the same sequence and with blanks around
them, and nothing else but blanks. -/
def Lists (text : String) (words : List String) : Prop :=
  ∃ pieces kernels, PiecesOf ',' text.toList pieces ∧ List.Forall₂ IsKernel pieces kernels ∧
    words = (kernels.filter (· ≠ [])).map String.ofList

def Names (text : String) (orders : List (List Term)) : Prop :=
  (∃ words, Lists text words ∧ List.Forall₂ Spells words orders) ∧
    ∀ ts ∈ orders, ts.Perm Term.all

variable {text : String} {words : List String} {orders : List (List Term)} {is : List Index}
  {r : Registry}

theorem lists_iff : Lists text words ↔ words = listedCodes text := by
  have hwords (ks : List (List Char)) : (ks.filter (· ≠ [])).map String.ofList =
      ks.filterMap fun piece => if piece = [] then none else some (String.ofList piece) := by
    induction ks with
    | nil => rfl
    | cons k ks ih =>
        by_cases hk : k = []
        · simpa [hk] using ih
        · simpa [hk] using ih
  rw [listedCodes, ← hwords]
  constructor
  · rintro ⟨pieces, kernels, hpieces, hkernels, rfl⟩
    rw [Text.forall₂_isKernel_iff.1 hkernels, Text.piecesOf_iff.1 hpieces]
  · rintro rfl
    exact ⟨_, _, Text.piecesOf_iff.2 rfl, Text.forall₂_isKernel_iff.2 rfl, rfl⟩

/-- Words without commas and blanks are listed by the text that joins them. -/
theorem lists_intercalate (hne : words ≠ [])
    (hwords : ∀ w ∈ words, w ≠ "" ∧ ∀ c ∈ w.toList, c ≠ ',' ∧ isBlank c = false) :
    Lists (String.intercalate "," words) words := by
  have hpieces : PiecesOf ',' (String.intercalate "," words).toList (words.map String.toList) := by
    refine ⟨fun h => hne (List.map_eq_nil_iff.1 h), List.forall_mem_map.2 fun w hw hc => ?_, ?_⟩
    · exact ((hwords w hw).2 _ hc).1 rfl
    · rw [String.toList_intercalate]
      rfl
  have hkernels : List.Forall₂ IsKernel (words.map String.toList) (words.map String.toList) :=
    List.forall₂_same.2 <| List.forall_mem_map.2 fun w hw =>
      Text.isKernel_self fun c hc => ((hwords w hw).2 c hc).2
  have hkept : (words.map String.toList).filter (· ≠ []) = words.map String.toList := by
    rw [List.filter_eq_self, List.forall_mem_map]
    exact fun w hw => decide_eq_true fun hnil => (hwords w hw).1 (String.toList_eq_nil_iff.1 hnil)
  refine ⟨_, _, hpieces, hkernels, ?_⟩
  rw [hkept, List.map_map]
  simp

theorem readOrders_cons_eq_ok_iff {word : String} :
    readOrders (word :: words) = .ok is ↔
      ∃ i js, Index.ofCodes word = .ok i ∧ readOrders words = .ok js ∧ is = i :: js := by
  rw [readOrders]
  cases Index.ofCodes word with
  | error f => simp
  | ok i => cases readOrders words <;> simp [bind, Except.bind, pure, Except.pure, eq_comm]

theorem readOrders_eq_ok_iff :
    readOrders words = .ok is ↔ List.Forall₂ Spells words (is.map Index.terms) ∧
      ∀ i ∈ is, i.name = Index.codes i.terms := by
  induction words generalizing is with
  | nil =>
      rw [readOrders, List.forall₂_nil_left_iff, List.map_eq_nil_iff, Except.ok.injEq, eq_comm]
      exact ⟨fun h => ⟨h, by simp [h]⟩, And.left⟩
  | cons word words ih =>
      rw [readOrders_cons_eq_ok_iff]
      constructor
      · rintro ⟨i, js, hi, hjs, rfl⟩
        obtain ⟨hspells, hname⟩ := Index.ofCodes_eq_ok_iff.1 hi
        obtain ⟨hrest, hnames⟩ := ih.1 hjs
        exact ⟨.cons hspells hrest, List.forall_mem_cons.2 ⟨hname, hnames⟩⟩
      · rintro ⟨hspells, hnames⟩
        cases is with
        | nil => cases hspells
        | cons i js =>
            obtain ⟨hi, hjs⟩ := List.forall₂_cons.1 hspells
            obtain ⟨hname, hrest⟩ := List.forall_mem_cons.1 hnames
            exact ⟨i, js, Index.ofCodes_eq_ok_iff.2 ⟨hi, hname⟩, ih.2 ⟨hjs, hrest⟩, rfl⟩

/-- A registry is read if the text names its orders and their codes are the names of its indexes. -/
theorem readRegistry_eq_ok_iff :
    readRegistry text = .ok r ↔ Names text (r.indexes.map Index.terms) ∧
      r.names = (r.indexes.map Index.terms).map Index.codes := by
  have hbind : readRegistry text = .ok r ↔ readOrders (listedCodes text) = .ok r.indexes := by
    rw [readRegistry]
    cases readOrders (listedCodes text) with
    | error e => simp [bind, Except.bind]
    | ok is => exact Registry.ofList_eq_ok_iff.trans (by rw [Except.ok.injEq, eq_comm])
  have hperm : ∀ ts ∈ r.indexes.map Index.terms, ts.Perm Term.all :=
    List.forall_mem_map.2 fun i _ => i.perm_all
  rw [hbind, readOrders_eq_ok_iff, Registry.names, List.map_map, List.map_inj_left, Names,
    and_iff_left hperm]
  simp only [lists_iff, exists_eq_left]
  rfl

theorem names_unique : Relator.RightUnique Names := by
  rintro text _ _ ⟨⟨words, hwords, hspells⟩, -⟩ ⟨⟨words', hwords', hspells'⟩, -⟩
  rw [lists_iff] at hwords hwords'
  subst hwords hwords'
  exact Index.spells_unique.forall₂ hspells hspells'

theorem exists_readRegistry_iff :
    (∃ r, readRegistry text = .ok r) ↔
      ∃ orders, Names text orders ∧ orders ≠ [] ∧ orders.Nodup := by
  constructor
  · rintro ⟨r, hr⟩
    obtain ⟨hnames, hcodes⟩ := readRegistry_eq_ok_iff.1 hr
    have hdistinct : ((r.indexes.map Index.terms).map Index.codes).Nodup := hcodes ▸ r.distinct
    exact ⟨_, hnames, mt List.map_eq_nil_iff.1 r.nonempty, hdistinct.of_map _⟩
  · rintro ⟨orders, hnames, hne, hdistinct⟩
    have hterms : (Registry.ofOrders orders hnames.2 hne hdistinct).indexes.map Index.terms =
        orders := (List.map_pmap ..).trans ((List.pmap_eq_map (f := id) _).trans (List.map_id _))
    refine ⟨.ofOrders orders hnames.2 hne hdistinct, readRegistry_eq_ok_iff.2 ?_⟩
    rw [hterms]
    exact ⟨hnames, (List.map_pmap ..).trans (List.pmap_eq_map _)⟩

/-- A registry whose indexes are named by their codes is read again from the names. -/
theorem readRegistry_intercalate_names
    (h : r.names = (r.indexes.map Index.terms).map Index.codes) :
    readRegistry (String.intercalate "," r.names) = .ok r := by
  have hspells : List.Forall₂ Spells r.names (r.indexes.map Index.terms) := by
    rw [h, List.forall₂_map_left_iff, List.forall₂_same]
    exact fun ts _ => Index.spells_codes ts
  have hwords : ∀ w ∈ r.names, w ≠ "" ∧ ∀ c ∈ w.toList, c ≠ ',' ∧ isBlank c = false := by
    intro w hw
    refine ⟨?_, fun c hc => ?_⟩
    · obtain ⟨i, -, rfl⟩ := List.mem_map.1 hw
      exact i.name_ne_empty
    · rw [h] at hw
      obtain ⟨ts, -, rfl⟩ := List.mem_map.1 hw
      rw [Index.toList_codes] at hc
      obtain ⟨t, -, rfl⟩ := List.mem_map.1 hc
      cases t <;> decide
  have hne : r.names ≠ [] := mt List.map_eq_nil_iff.1 r.nonempty
  exact readRegistry_eq_ok_iff.2 ⟨⟨⟨_, lists_intercalate hne hwords, hspells⟩,
    List.forall_mem_map.2 fun i _ => i.perm_all⟩, h⟩

/-! ## Variables -/

variable {lookup : String → Option String} {s : Settings} {context : String}

theorem contextFault?_eq_none_iff :
    contextFault? context = none ↔ context ≠ "" ∧ isReserved context = false := by
  rw [contextFault?]
  split
  · next h => exact iff_of_false nofun fun hne => hne.1 h
  · next h => simp [h]

theorem loadRegistry_eq_ok_iff :
    loadRegistry lookup = .ok r ↔ (lookup indexesVariable = none ∧ r = .standard) ∨
      ∃ text, lookup indexesVariable = some text ∧ readRegistry text = .ok r := by
  rw [loadRegistry]
  cases lookup indexesVariable with
  | none => simp [eq_comm]
  | some text => cases h : readRegistry text <;> simp [h]

theorem loadContext_eq_ok_iff :
    loadContext lookup = .ok context ↔
      (lookup contextVariable = none ∧ context = defaultContextName) ∨
        lookup contextVariable = some context ∧ context ≠ "" ∧ isReserved context = false := by
  rw [loadContext, ← contextFault?_eq_none_iff]
  cases lookup contextVariable with
  | none =>
      constructor
      · exact fun h => .inl ⟨rfl, (Except.ok.inj h).symm⟩
      · rintro (⟨-, rfl⟩ | ⟨h, -⟩)
        · rfl
        · contradiction
  | some value =>
      cases h : contextFault? value with
      | none =>
          simp only [h]
          constructor
          · intro hok
            obtain rfl := Except.ok.inj hok
            exact .inr ⟨rfl, h⟩
          · rintro (⟨hnone, -⟩ | ⟨hsome, -⟩)
            · contradiction
            · rw [Option.some.inj hsome]
      | some reason =>
          simp only [h]
          refine iff_of_false nofun ?_
          rintro (⟨hnone, -⟩ | ⟨hsome, hfree⟩)
          · contradiction
          · rw [← Option.some.inj hsome, h] at hfree
            contradiction

theorem free_of_loadContext (h : loadContext lookup = .ok context) :
    isReserved context = false := by
  rcases loadContext_eq_ok_iff.1 h with ⟨-, rfl⟩ | ⟨-, -, hfree⟩
  · decide
  · exact hfree

theorem load_eq_ok_iff :
    load lookup = .ok s ↔
      loadRegistry lookup = .ok s.registry ∧ loadContext lookup = .ok s.defaultContext := by
  rw [load]
  cases loadRegistry lookup with
  | error e => simp [bind, Except.bind]
  | ok r =>
      cases loadContext lookup with
      | error e => simp [bind, Except.bind]
      | ok context =>
          cases s
          simp [bind, Except.bind, pure, Except.pure]

/-- A store takes a default context that can be part of keys and is not too long. -/
theorem make_eq_ok {σ : Type} (engine : σ) (hfree : isReserved s.defaultContext = false)
    (hfits : s.defaultContext.utf8ByteSize ≤ maxFieldLength) :
    Store.make engine s = .ok ⟨engine, s.registry, s.defaultContext, []⟩ := by
  have hfault : Quad.fault? ⟨"", "", "", s.defaultContext⟩ = none := by
    rw [Quad.fault?_eq_none_iff]
    intro t
    cases t with
    | context => exact ⟨decide_eq_true hfits, hfree⟩
    | _ => exact ⟨rfl, rfl⟩
  rw [Store.make, hfault]

theorem exists_load_iff (lookup : String → Option String) :
    (∃ s, load lookup = .ok s) ↔
      (∀ text, lookup indexesVariable = some text →
        ∃ orders, Names text orders ∧ orders ≠ [] ∧ orders.Nodup) ∧
      ∀ context, lookup contextVariable = some context →
        context ≠ "" ∧ isReserved context = false := by
  have hregistry : (∃ r, loadRegistry lookup = .ok r) ↔
      ∀ text, lookup indexesVariable = some text →
        ∃ orders, Names text orders ∧ orders ≠ [] ∧ orders.Nodup := by
    simp only [loadRegistry_eq_ok_iff, ← exists_readRegistry_iff]
    cases lookup indexesVariable with
    | none => simp
    | some text => simp
  have hcontext : (∃ context, loadContext lookup = .ok context) ↔
      ∀ context, lookup contextVariable = some context →
        context ≠ "" ∧ isReserved context = false := by
    simp only [loadContext_eq_ok_iff]
    cases lookup contextVariable with
    | none => simp
    | some context => simp
  rw [← hregistry, ← hcontext]
  constructor
  · rintro ⟨s, hs⟩
    obtain ⟨hr, hc⟩ := load_eq_ok_iff.1 hs
    exact ⟨⟨_, hr⟩, _, hc⟩
  · rintro ⟨⟨r, hr⟩, context, hc⟩
    exact ⟨⟨r, context⟩, load_eq_ok_iff.2 ⟨hr, hc⟩⟩

/-- Settings are loaded exactly if the list of orders, where there is one, names at least one order
and none of them twice, and the context, where there is one, can be part of keys. The registry then
has the orders that are named, in their sequence, each under the name that its codes make. It is
loaded again from these names, and a store takes the settings unless the context is too long. -/
theorem load_reads_orders (lookup : String → Option String) :
    ((∃ s, load lookup = .ok s) ↔
      (∀ text, lookup indexesVariable = some text →
        ∃ orders, Names text orders ∧ orders ≠ [] ∧ orders.Nodup) ∧
      ∀ context, lookup contextVariable = some context →
        context ≠ "" ∧ '\x00' ∉ context.toList ∧ Char.ofNat 0x10FFFF ∉ context.toList) ∧
    ∀ s, load lookup = .ok s →
      (∀ text, lookup indexesVariable = some text →
        ∀ orders, Names text orders ↔ s.registry.indexes.map Index.terms = orders) ∧
      (lookup indexesVariable = none → s.registry = .standard) ∧
      s.registry.names = (s.registry.indexes.map Index.terms).map Index.codes ∧
      s.registry.names.Nodup ∧
      s.defaultContext = (lookup contextVariable).getD defaultContextName ∧
      load (Function.update lookup indexesVariable
        (some (String.intercalate "," s.registry.names))) = .ok s ∧
      (s.defaultContext.utf8ByteSize ≤ 0xFFFFFFFF → ∀ {σ : Type} (engine : σ),
        Store.make engine s = .ok ⟨engine, s.registry, s.defaultContext, []⟩) := by
  refine ⟨?_, fun s hs => ?_⟩
  · rw [exists_load_iff]
    simp only [isReserved_eq_false_iff]
    rfl
  · obtain ⟨hr, hc⟩ := load_eq_ok_iff.1 hs
    have hregistry := loadRegistry_eq_ok_iff.1 hr
    have hcodes : s.registry.names = (s.registry.indexes.map Index.terms).map Index.codes := by
      rcases hregistry with ⟨-, hstandard⟩ | ⟨_, -, hread⟩
      · rw [hstandard]
        decide
      · exact (readRegistry_eq_ok_iff.1 hread).2
    have hagain := readRegistry_intercalate_names hcodes
    refine ⟨fun text htext orders => ?_, fun hnone => ?_, hcodes, s.registry.distinct, ?_,
      load_eq_ok_iff.2 ⟨?_, ?_⟩, fun hfits _ engine => ?_⟩
    · rcases hregistry with ⟨hnone, -⟩ | ⟨_, hsome, hread⟩
      · rw [hnone] at htext
        contradiction
      · obtain rfl := Option.some.inj (htext.symm.trans hsome)
        have hnames := (readRegistry_eq_ok_iff.1 hread).1
        exact ⟨fun h => names_unique hnames h, fun h => h ▸ hnames⟩
    · rcases hregistry with ⟨-, hstandard⟩ | ⟨_, hsome, -⟩
      · exact hstandard
      · rw [hnone] at hsome
        contradiction
    · rcases loadContext_eq_ok_iff.1 hc with ⟨hnone, hdefault⟩ | ⟨hsome, -⟩
      · rw [hnone, hdefault]
        rfl
      · rw [hsome]
        rfl
    · exact loadRegistry_eq_ok_iff.2 (.inr ⟨_, Function.update_self .., hagain⟩)
    · rwa [loadContext, Function.update_of_ne (by decide)]
    · exact make_eq_ok engine (free_of_loadContext hc) hfits

/-- Two orders are read in either case and with blanks, and again from their names. Two spellings of
one order are refused. -/
theorem load_reads_orders_of_spellings :
    let lookup (text name : String) := if name = indexesVariable then some text else none
    (∃ s, load (lookup "spog, Cspo ,") = .ok s ∧ s.registry.names = ["SPOG", "GSPO"] ∧
      load (Function.update (lookup "spog, Cspo ,") indexesVariable (some "SPOG,GSPO")) = .ok s) ∧
      ¬ ∃ s, load (lookup "cspo,GSPO") = .ok s := by
  intro lookup
  refine ⟨?_, fun ⟨s, hs⟩ => ?_⟩
  · have hnames : (load (lookup "spog, Cspo ,")).toOption.map (·.registry.names) =
        some ["SPOG", "GSPO"] := by decide
    cases hs : load (lookup "spog, Cspo ,") with
    | error e =>
        rw [hs] at hnames
        contradiction
    | ok s =>
        rw [hs] at hnames
        have hread : s.registry.names = ["SPOG", "GSPO"] := Option.some.inj hnames
        obtain ⟨-, -, -, -, -, hagain, -⟩ := (load_reads_orders (lookup "spog, Cspo ,")).2 s hs
        rw [hread] at hagain
        exact ⟨s, rfl, hread, hagain⟩
  · have hnone : (load (lookup "cspo,GSPO")).toOption = none := by decide
    rw [hs] at hnone
    contradiction

end QuadIndex.Settings
