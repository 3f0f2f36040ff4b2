import QuadIndex.Proofs.Store.Quiet

/-! # The content of a store along its history

Whatever commands a store has carried out, and whichever of them failed, its table holds exactly
one set of quads under all its indexes. -/

namespace QuadIndex

/-- What can be asked of a store that changes it. -/
inductive Command where
  | put (qs : List Quad)
  | erase (qs : List Quad)
  | patch (old new : List Quad)
  | eraseMatching (p : Pattern)
  | patchMatching (p : Pattern) (new : List Quad)
  | putEach (qs : List Quad)
  | eraseEach (qs : List Quad)
  | register (i : Index)

def Command.newIndexes : Command → List Index
  | register i => [i]
  | _ => []

namespace Model

/-- What a command that succeeds does to a model. -/
def perform (m : Model) : Command → Model
  | .put qs => m.put qs
  | .erase qs => m.erase qs
  | .patch old new => (m.erase old).put new
  | .eraseMatching p => m.erase (m.expected p)
  | .patchMatching p new => (m.erase (m.expected p)).put new
  | .putEach qs => m.put qs
  | .eraseEach qs => m.erase qs
  | .register _ => m

/-- What is left of a command that fails. Those that write quad by quad have done the first `n`. -/
def performPart (m : Model) (n : Nat) : Command → Model
  | .putEach qs => m.put (qs.take n)
  | .eraseEach qs => m.erase (qs.take n)
  | _ => m

end Model

namespace Store

open LawfulEngine (Quiet)

variable {σ κ : Type} [Engine σ κ]

/-- An outcome without its count. -/
def uncounted (o : Outcome σ Nat) : Outcome σ Unit := (o.1.map fun _ => (), o.2)

def perform (st : Store σ) : Command → Outcome σ Unit
  | .put qs => st.put qs
  | .erase qs => st.erase qs
  | .patch old new => st.patch old new
  | .eraseMatching p => uncounted (st.eraseMatching p)
  | .patchMatching p new => uncounted (st.patchMatching p new)
  | .putEach qs => uncounted (st.putEach qs)
  | .eraseEach qs => uncounted (st.eraseEach qs)
  | .register i => st.register i

/-- The store has no reason of its own to refuse the command: the quads can be stored, the pattern
has no fault, the name of the index is new. -/
def Accepts (st : Store σ) : Command → Prop
  | .put qs | .erase qs | .putEach qs | .eraseEach qs => st.Storable qs
  | .patch old new => st.Storable old ∧ st.Storable new
  | .eraseMatching p => p.fault? = none
  | .patchMatching p new => p.fault? = none ∧ st.Storable new
  | .register i => i.name ∉ st.registry.names

/-- The states of a store that was made over an empty engine. Between commands, anything may
happen that leaves the table, the registry and the default context alone: queries, faults, new
fault rates. -/
inductive Reachable : Store σ → Prop
  | make {engine : σ} {settings : Settings} {st : Store σ}
      (empty : (Engine.table engine).entries = []) (made : Store.make engine settings = .ok st) :
      Reachable st
  | perform {st : Store σ} (c : Command) (h : Reachable st) : Reachable (st.perform c).2
  | idle {st st' : Store σ} (h : Reachable st) (kept : Kept st st')
      (table : Engine.table st'.engine = Engine.table st.engine) : Reachable st'

theorem mirrors_of_make {engine : σ} {settings : Settings} {st : Store σ}
    (empty : (Engine.table engine).entries = []) (made : Store.make engine settings = .ok st) :
    st.Mirrors (.empty settings.defaultContext) := by
  rw [Store.make] at made
  split at made
  · contradiction
  · obtain rfl := Except.ok.inj made
    refine ⟨rfl, .nil, nofun, nofun, ?_⟩
    intro e
    constructor
    · intro he
      rw [empty] at he
      contradiction
    · rintro ⟨q, hq, -⟩
      contradiction

variable [LawfulEngine σ κ] {st : Store σ} {m : Model}

omit [LawfulEngine σ κ] in
theorem meets_uncounted {o : Outcome σ Nat} {P : Store σ → Prop} {Q : StoreError → Store σ → Prop}
    (h : o.Meets (fun _ st => P st) Q) : (uncounted o).Meets (fun _ st => P st) Q := by
  obtain ⟨r, st⟩ := o
  cases r with
  | ok n => exact h
  | error e => exact h

/-- Every command moves the model and adds its index, or fails. -/
theorem Mirrors.perform_meets (h : st.Mirrors m) (c : Command) :
    (st.perform c).Meets
      (fun _ st' => st'.Mirrors (m.perform c) ∧
        st'.registry.indexes = st.registry.indexes ++ c.newIndexes)
      (fun _ st' => st'.registry = st.registry ∧ ∃ n, st'.Mirrors (m.performPart n c)) := by
  have same {st' : Store σ} (hk : Kept st st') :
      st'.registry.indexes = st.registry.indexes ++ [] := by
    rw [hk.registry, List.append_nil]
  cases c with
  | put qs =>
      exact (h.patch_meets [] qs).imp (fun _ _ hs => ⟨hs.2, same hs.1⟩)
        (fun _ _ hs => ⟨hs.1.registry, 0, hs.2⟩)
  | erase qs =>
      exact (h.patch_meets qs []).imp (fun _ _ hs => ⟨hs.2, same hs.1⟩)
        (fun _ _ hs => ⟨hs.1.registry, 0, hs.2⟩)
  | patch old new =>
      exact (h.patch_meets old new).imp (fun _ _ hs => ⟨hs.2, same hs.1⟩)
        (fun _ _ hs => ⟨hs.1.registry, 0, hs.2⟩)
  | eraseMatching p =>
      exact meets_uncounted ((h.patchMatching_meets p []).imp
        (fun _ _ hs => ⟨hs.2.2, same hs.2.1⟩) (fun _ _ hs => ⟨hs.1.registry, 0, hs.2⟩))
  | patchMatching p new =>
      exact meets_uncounted ((h.patchMatching_meets p new).imp
        (fun _ _ hs => ⟨hs.2.2, same hs.2.1⟩) (fun _ _ hs => ⟨hs.1.registry, 0, hs.2⟩))
  | putEach qs =>
      exact meets_uncounted ((h.putEach_meets qs).imp
        (fun _ _ hs => ⟨hs.2.2, same hs.2.1⟩)
        (fun _ _ ⟨hk, n, _, hm⟩ => ⟨hk.registry, n, hm⟩))
  | eraseEach qs =>
      exact meets_uncounted ((h.eraseEach_meets qs).imp
        (fun _ _ hs => ⟨hs.2.2, same hs.2.1⟩)
        (fun _ _ ⟨hk, n, _, hm⟩ => ⟨hk.registry, n, hm⟩))
  | register i =>
      exact (h.register_meets i).imp (fun _ _ hs => ⟨hs.mirrors, hs.indexes⟩)
        (fun _ _ hs => ⟨hs.1.registry, 0, hs.2⟩)

omit [Engine σ κ] [LawfulEngine σ κ] in
theorem uncounted_eq_ok_iff {o : Outcome σ Nat} :
    (uncounted o).1 = .ok () ↔ ∃ n, o.1 = .ok n := by
  have hmap : (uncounted o).1 = (fun _ => ()) <$> o.1 := rfl
  rw [hmap, map_eq_ok_iff]
  simp only [and_true]

/-- Over a quiet engine exactly the commands that the store accepts succeed. -/
theorem Mirrors.perform_eq_ok_iff (h : st.Mirrors m) (hquiet : Quiet st.engine) (c : Command) :
    (st.perform c).1 = .ok () ↔ st.Accepts c := by
  have hnil : st.Storable [] := nofun
  cases c with
  | put qs => exact (patch_eq_ok_iff hquiet [] qs).trans (and_iff_right hnil)
  | erase qs => exact (patch_eq_ok_iff hquiet qs []).trans (and_iff_left hnil)
  | patch old new => exact patch_eq_ok_iff hquiet old new
  | eraseMatching p =>
      exact uncounted_eq_ok_iff.trans ((h.patchMatching_eq_ok_iff hquiet).trans
        (and_iff_left hnil))
  | patchMatching p new => exact uncounted_eq_ok_iff.trans (h.patchMatching_eq_ok_iff hquiet)
  | putEach qs =>
      refine uncounted_eq_ok_iff.trans
        ((eachQuad_eq_ok_iff hquiet (fun _ => []) (fun q => [q]) 0 qs).trans ?_)
      simp [Storable, Accepts]
  | eraseEach qs =>
      refine uncounted_eq_ok_iff.trans
        ((eachQuad_eq_ok_iff hquiet (fun q => [q]) (fun _ => []) 0 qs).trans ?_)
      simp [Storable, Accepts]
  | register i => exact h.shows.register_eq_ok_iff hquiet

theorem Reachable.exists_mirrors (h : st.Reachable) : ∃ m, st.Mirrors m := by
  induction h with
  | make empty made => exact ⟨_, mirrors_of_make empty made⟩
  | perform c _ ih =>
      obtain ⟨m, hm⟩ := ih
      rcases (hm.perform_meets c).ok_or_error with ⟨_, -, hm', -⟩ | ⟨_, -, -, n, hm'⟩
      · exact ⟨_, hm'⟩
      · exact ⟨_, hm'⟩
  | idle _ kept table ih =>
      obtain ⟨m, hm⟩ := ih
      exact ⟨m, hm.of_kept kept table⟩

/-- A new store is empty, and every later state holds exactly one set of quads under all indexes of
its registry. A command that succeeds moves this set as it moves the model, one that fails moves
it only as far as it came quad by quad, and a new index brings exactly its own keys. While no fault
is injected, a command succeeds exactly if the store accepts it. -/
theorem content_follows_commands :
    (∀ (engine : σ) (settings : Settings) (st : Store σ), (Engine.table engine).entries = [] →
      Store.make engine settings = .ok st → st.Mirrors (.empty settings.defaultContext)) ∧
    ∀ st : Store σ, st.Reachable → ∃ m : Model, st.Mirrors m ∧ (∀ m', st.Mirrors m' → m' = m) ∧
      (∀ c : Command, (st.perform c).1 = .ok () →
        (st.perform c).2.Mirrors (m.perform c) ∧
          (st.perform c).2.registry.indexes = st.registry.indexes ++ c.newIndexes) ∧
      (∀ (c : Command) (e : StoreError), (st.perform c).1 = .error e →
        (st.perform c).2.registry = st.registry ∧
          ∃ n, (st.perform c).2.Mirrors (m.performPart n c)) ∧
      (∀ i : Index, (st.perform (.register i)).1 = .ok () → ∀ e : Entry,
        e ∈ (Engine.table (st.perform (.register i)).2.engine).entries ↔
          e ∈ (Engine.table st.engine).entries ∨
            ∃ q ∈ m.quads, e = (i.key q, Record.encode q)) ∧
      (Quiet st.engine → ∀ c : Command, (st.perform c).1 = .ok () ↔ st.Accepts c) := by
  refine ⟨fun engine settings st => mirrors_of_make, ?_⟩
  intro st hst
  obtain ⟨m, hm⟩ := hst.exists_mirrors
  exact ⟨m, hm, fun m' => hm.unique, fun c => (hm.perform_meets c).of_ok,
    fun c e => (hm.perform_meets c).of_error,
    fun i hi => ((hm.register_meets i).of_ok hi).entries, hm.perform_eq_ok_iff⟩

/-- A quad is put and then replaced by itself and another one, over a table and over an engine whose
writes could fail. -/
theorem content_follows_patch :
    (perform (perform ⟨Table.empty, .standard, "g", []⟩ (.put [⟨"s", "p", "o", ""⟩])).2
        (.patch [⟨"s", "p", "o", ""⟩] [⟨"s", "p", "o", "g"⟩, ⟨"s", "p", "r", ""⟩])).2.Mirrors
      ⟨[⟨"s", "p", "o", "g"⟩, ⟨"s", "p", "r", "g"⟩], "g"⟩ ∧
    (perform (perform ⟨FaultyEngine.make (fun _ => 0xFFFFFFFF) .high, .standard, "g", []⟩
        (.put [⟨"s", "p", "o", ""⟩])).2
        (.patch [⟨"s", "p", "o", ""⟩] [⟨"s", "p", "o", "g"⟩, ⟨"s", "p", "r", ""⟩])).2.Mirrors
      ⟨[⟨"s", "p", "o", "g"⟩, ⟨"s", "p", "r", "g"⟩], "g"⟩ := by
  have hmade {σ : Type} (engine : σ) : make engine ⟨.standard, "g"⟩ =
      .ok ⟨engine, .standard, "g", []⟩ := rfl
  constructor
  · have hall := content_follows_commands (σ := Table)
    have hst := Reachable.make rfl (hmade Table.empty)
    obtain ⟨m, hm, hunique, hok, -⟩ := hall.2 _ hst
    obtain rfl := hunique _ (hall.1 _ _ _ rfl (hmade Table.empty))
    have hput := (hok (.put [⟨"s", "p", "o", ""⟩]) rfl).1
    obtain ⟨m, hm, hunique, hok, -⟩ := hall.2 _ (hst.perform (.put [⟨"s", "p", "o", ""⟩]))
    obtain rfl := hunique _ hput
    exact (hok (.patch [⟨"s", "p", "o", ""⟩] [⟨"s", "p", "o", "g"⟩, ⟨"s", "p", "r", ""⟩]) rfl).1
  · have hall := content_follows_commands (σ := FaultyEngine)
    have hst := Reachable.make rfl (hmade (FaultyEngine.make (fun _ => 0xFFFFFFFF) .high))
    obtain ⟨m, hm, hunique, hok, -⟩ := hall.2 _ hst
    obtain rfl := hunique _ (hall.1 _ _ _ rfl (hmade _))
    have hput := (hok (.put [⟨"s", "p", "o", ""⟩]) rfl).1
    obtain ⟨m, hm, hunique, hok, -⟩ := hall.2 _ (hst.perform (.put [⟨"s", "p", "o", ""⟩]))
    obtain rfl := hunique _ hput
    exact (hok (.patch [⟨"s", "p", "o", ""⟩] [⟨"s", "p", "o", "g"⟩, ⟨"s", "p", "r", ""⟩]) rfl).1

end Store
end QuadIndex
