import QuadIndex.Proofs.Store.History

/-! # What a failed operation leaves behind

An operation that writes one batch, or none, leaves entries and registry alone if it fails, wherever
the failure strikes. One that writes quad by quad stops at the first quad that cannot be written,
and keeps those before it. -/

namespace QuadIndex

theorem Table.ext {t u : Table} (h : t.entries = u.entries) : t = u := by
  cases t
  cases u
  cases h
  rfl

/-- The command takes effect as a whole or not at all. -/
def Command.AllOrNothing : Command → Prop
  | putEach _ | eraseEach _ => False
  | _ => True

namespace Store

variable {σ κ : Type} [Engine σ κ] {st st' : Store σ} {m : Model}

theorem Mirrors.table_eq (h : st.Mirrors m) (h' : st'.Mirrors m)
    (hr : st'.registry = st.registry) :
    Engine.table st'.engine = Engine.table st.engine := by
  have hholds := h'.holds
  rw [hr] at hholds
  apply Table.ext
  refine eq_of_ascending (fun _ _ => List.lt_asymm) (Table.ascending _) (Table.ascending _) ?_
  intro e
  rw [hholds e, h.holds e]

/-- How a write quad by quad ends over a store that mirrors the model, if each quad by itself moves
the model by `effect`. After a failure nothing more is tried: the store is the one that the failed
write of a single quad left. -/
def EndsAtFailure (op : Store σ → Quad → Outcome σ Unit) (effect : Model → List Quad → Model)
    (m : Model) (st : Store σ) (qs : List Quad) (o : Outcome σ Nat) : Prop :=
  o.Meets
    (fun n st' => n = qs.length ∧ Writes op st qs st' ∧ st'.Mirrors (effect m qs) ∧
      st'.registry = st.registry)
    (fun e st' => ∃ before q after st₁, qs = before ++ q :: after ∧ Writes op st before st₁ ∧
      st₁.Mirrors (effect m before) ∧ op st₁ q = (.error e, st') ∧
      Engine.table st'.engine = Engine.table st₁.engine ∧ st'.registry = st.registry)

theorem Mirrors.eachQuad_ends {op : Store σ → Quad → Outcome σ Unit} (step : Model → Quad → Model)
    (hop : ∀ st : Store σ, ∀ m : Model, st.Mirrors m → ∀ q, (op st q).Meets
      (fun _ st' => Kept st st' ∧ st'.Mirrors (step m q))
      (fun _ st' => Kept st st' ∧ st'.Mirrors m))
    (h : st.Mirrors m) (qs : List Quad) :
    EndsAtFailure op (fun m qs => qs.foldl step m) m st qs (eachQuad op st 0 qs) := by
  refine (eachQuad_writes op st 0 qs).imp ?_ ?_
  · rintro n st' ⟨rfl, hwrites⟩
    obtain ⟨hkept, hm⟩ := hwrites.mirrors hop h
    exact ⟨Nat.zero_add _, hwrites, hm, hkept.registry⟩
  · rintro e st' ⟨before, q, after, st₁, rfl, hwrites, hfails⟩
    obtain ⟨hkept, hm⟩ := hwrites.mirrors hop h
    have hlast := hop st₁ _ hm q
    rw [hfails] at hlast
    exact ⟨before, q, after, st₁, rfl, hwrites, hm, hfails,
      hm.table_eq hlast.2 hlast.1.registry, (hkept.trans hlast.1).registry⟩

variable [LawfulEngine σ κ]

/-- Whatever the reason, a command that is carried out as a whole changes no entry and no index if
it fails. -/
theorem Mirrors.perform_error (h : st.Mirrors m) {c : Command} (hc : c.AllOrNothing)
    {e : StoreError} (he : (st.perform c).1 = .error e) :
    Engine.table (st.perform c).2.engine = Engine.table st.engine ∧
      (st.perform c).2.registry = st.registry := by
  obtain ⟨hr, n, hm⟩ := (h.perform_meets c).of_error he
  have hpart : m.performPart n c = m := by
    cases c with
    | putEach => exact hc.elim
    | eraseEach => exact hc.elim
    | _ => rfl
  rw [hpart] at hm
  exact ⟨h.table_eq hm hr, hr⟩

/-- A failed command leaves the entries of the engine and the indexes of the registry as they were.
Writing quad by quad fails at the first quad whose own write fails, with the effect of the quads
before it and no attempt at those after it; if it succeeds, all quads are written and counted. -/
theorem failed_command_keeps_content (h : st.Reachable) :
    (∀ (c : Command) (e : StoreError), c.AllOrNothing → (st.perform c).1 = .error e →
      (Engine.table (st.perform c).2.engine).entries = (Engine.table st.engine).entries ∧
        (st.perform c).2.registry.indexes = st.registry.indexes) ∧
    ∃ m : Model, st.Mirrors m ∧ ∀ qs : List Quad,
      EndsAtFailure (fun st q => st.put [q]) Model.put m st qs (st.putEach qs) ∧
      EndsAtFailure (fun st q => st.erase [q]) Model.erase m st qs (st.eraseEach qs) := by
  obtain ⟨m, hm⟩ := h.exists_mirrors
  constructor
  · intro c e hc he
    obtain ⟨ht, hr⟩ := hm.perform_error hc he
    exact ⟨congrArg Table.entries ht, congrArg Registry.indexes hr⟩
  · refine ⟨m, hm, fun qs => ⟨?_, ?_⟩⟩
    · have hput := hm.eachQuad_ends (fun m q => m.put [q])
        (fun st m h q => h.patch_meets [] [q]) qs
      simp only [← Model.put_eq_foldl] at hput
      exact hput
    · have herase := hm.eachQuad_ends (fun m q => m.erase [q])
        (fun st m h q => h.patch_meets [q] []) qs
      simp only [← Model.erase_eq_foldl] at herase
      exact herase

/-- An engine that fails from its second batch on. -/
def failingSecond : FaultyEngine := .make (fun n => if n < 2 then 0xFFFFFFFF else 0) .high

/-- Of two quads only the first can be written: it stays, and nothing else changes. -/
theorem failed_command_keeps_first :
    (putEach ⟨failingSecond, .standard, "g", []⟩ [⟨"s", "p", "o", ""⟩, ⟨"t", "p", "o", ""⟩]).1 =
      .error (.engine (.injectedFault "simulated write error")) ∧
    ∃ st₁ : Store FaultyEngine, st₁.Mirrors ⟨[⟨"s", "p", "o", "g"⟩], "g"⟩ ∧
      (putEach ⟨failingSecond, .standard, "g", []⟩
        [⟨"s", "p", "o", ""⟩, ⟨"t", "p", "o", ""⟩]).2.engine.table = st₁.engine.table := by
  have hmade : make failingSecond ⟨.standard, "g"⟩ = .ok ⟨failingSecond, .standard, "g", []⟩ := rfl
  have herror : (putEach ⟨failingSecond, .standard, "g", []⟩
      [⟨"s", "p", "o", ""⟩, ⟨"t", "p", "o", ""⟩]).1 =
        .error (.engine (.injectedFault "simulated write error")) := rfl
  obtain ⟨-, m, hm, heach⟩ := failed_command_keeps_content (.make rfl hmade)
  obtain rfl := (mirrors_of_make rfl hmade).unique hm
  obtain ⟨before, q, after, st₁, hsplit, hwrites, hm₁, hfails, ht, -⟩ :=
    (heach [⟨"s", "p", "o", ""⟩, ⟨"t", "p", "o", ""⟩]).1.of_error herror
  refine ⟨herror, st₁, ?_, ht⟩
  cases before with
  | nil =>
      obtain ⟨rfl, -⟩ := List.cons.inj hsplit
      cases hwrites
      cases congrArg Prod.fst hfails
  | cons r before =>
      obtain ⟨rfl, hlater⟩ := List.cons.inj hsplit
      obtain ⟨rfl, -⟩ := List.singleton_eq_append_iff.1 hlater |>.resolve_right nofun
      exact hm₁

end Store
end QuadIndex
