import QuadIndex.Proofs.Engine.Counters
import QuadIndex.Proofs.Store.History
import QuadIndex.Proofs.Trial.Audit
import QuadIndex.Proofs.Trial.Workload
import QuadIndex.Trial.Run

/-! # Trials find nothing

Between operations a store mirrors the model of its trial, and its engine holds no cursor open.
Every operation that a workload draws keeps this, whichever of its reads and writes fail. The model
follows the operations that were drawn, but for the writes that failed. -/

namespace QuadIndex

open FaultyEngine (Tended)

/-- The error is a fault that the rates call for. -/
def FaultRates.Explains (r : FaultRates) (e : StoreError) : Prop :=
  r.injects = true ∧ ∃ reason, e = .engine (.injectedFault reason)

/-! ## Stores over an engine that may fail -/

namespace Store

variable {st : Store FaultyEngine} {rates : FaultRates}

theorem tended_get (h : Tended rates none st.engine) (p : Pattern) (paging : Paging) :
    Tended rates none (st.get p paging).2.engine :=
  custody_get (Tended.custody rates) h p paging

theorem explains_submit (h : Tended rates none st.engine) {b : Batch} {e : StoreError}
    (he : (st.submit b).1 = .error e) : rates.Explains e := by
  rw [submit] at he
  split at he
  · contradiction
  · split at he
    · contradiction
    · next error engine hw =>
      obtain ⟨hinjects, reason, rfl⟩ := h.fault_of_write_error hw
      exact ⟨hinjects, reason, (Except.error.inj he).symm⟩

theorem tended_patch (h : Tended rates none st.engine) (old new : List Quad) :
    Tended rates none (st.patch old new).2.engine := by
  rcases st.engine_patch old new with heq | ⟨b, heq⟩
  · rwa [heq]
  · rw [heq]
    exact h.write b

/-- A batch of storable quads fails only if the engine does. -/
theorem explains_patch (h : Tended rates none st.engine) {old new : List Quad}
    (hold : ∀ q ∈ old.map (fillContext st.defaultContext), q.fault? = none)
    (hnew : ∀ q ∈ new.map (fillContext st.defaultContext), q.fault? = none) {e : StoreError}
    (he : (st.patch old new).1 = .error e) : rates.Explains e := by
  rw [patch, batch_eq_ok_iff.2 ⟨hold, hnew, rfl⟩] at he
  exact explains_submit h he

end Store

/-! ## Operations -/

namespace Trial

variable {t : Trial} {st st' : TrialStore}

@[simp] theorem found_nil (t : Trial) (operation : Nat) : t.found operation [] = t := by
  simp [found, Audit.located]

/-- A fault that the rates call for is not a finding. -/
theorem fail_eq {e : StoreError} (he : t.settings.rates.Explains e) (operation : Nat) :
    t.fail operation e = { t with failed := t.failed + 1 } := by
  obtain ⟨hinjects, reason, rfl⟩ := he
  rw [fail, errorFindings, if_pos hinjects]
  exact found_nil _ operation

/-- What holds of a trial and its store between operations. -/
structure Sound (t : Trial) (st : TrialStore) : Prop where
  mirrors : st.Mirrors t.model
  tended : Tended t.settings.rates none st.engine
  context : Quad.fault? ⟨"", "", "", st.defaultContext⟩ = none
  clean : t.violations = []
  quiet : t.settings.rates.injects = false → t.failed = 0

def attempts (t : Trial) : Nat := t.succeeded + t.failed

/-- How a trial and its store go on: operations are begun, for which the store is asked a number of
times within bounds, and they stay sound. -/
structure Advance (operations least most : Nat) (x y : Trial × TrialStore) : Prop where
  sound : Sound y.1 y.2
  settings : y.1.settings = x.1.settings
  kept : Store.Kept x.2 y.2
  processed : y.1.processed = x.1.processed + operations
  least : x.1.attempts + least ≤ y.1.attempts
  most : y.1.attempts ≤ x.1.attempts + most

namespace Advance

variable {operations least most : Nat} {x y z : Trial × TrialStore}

theorem refl (h : Sound x.1 x.2) : Advance 0 0 0 x x :=
  ⟨h, rfl, Store.Kept.refl x.2, rfl, Nat.le_refl _, Nat.le_refl _⟩

theorem trans {operations' least' most' : Nat} (h : Advance operations least most x y)
    (h' : Advance operations' least' most' y z) :
    Advance (operations + operations') (least + least') (most + most') x z := by
  have hleast := h.least
  have hleast' := h'.least
  have hmost := h.most
  have hmost' := h'.most
  refine ⟨h'.sound, h'.settings.trans h.settings, h.kept.trans h'.kept, ?_, by omega, by omega⟩
  rw [h'.processed, h.processed, Nat.add_assoc]

theorem loosen {least' most' : Nat} (h : Advance operations least most x y)
    (hleast : least' ≤ least) (hmost : most ≤ most') : Advance operations least' most' x y :=
  ⟨h.sound, h.settings, h.kept, h.processed,
    Nat.le_trans (Nat.add_le_add_left hleast _) h.least,
    Nat.le_trans h.most (Nat.add_le_add_left hmost _)⟩

end Advance

namespace Sound

theorem advance_succeed (h : Sound t st') (hk : Store.Kept st st') :
    Advance 0 1 1 (t, st) (t.succeed, st') :=
  have hcount : t.succeed.attempts = t.attempts + 1 := Nat.add_right_comm _ _ _
  ⟨⟨h.mirrors, h.tended, h.context, h.clean, h.quiet⟩, rfl, hk, rfl, Nat.le_of_eq hcount.symm,
    Nat.le_of_eq hcount⟩

theorem advance_fail (h : Sound t st') (hk : Store.Kept st st') {e : StoreError}
    (he : t.settings.rates.Explains e) (operation : Nat) :
    Advance 0 1 1 (t, st) (t.fail operation e, st') := by
  rw [fail_eq he]
  refine ⟨⟨h.mirrors, h.tended, h.context, h.clean, ?_⟩, rfl, hk, rfl, Nat.le_refl _,
    Nat.le_refl _⟩
  intro hquiet
  rw [he.1] at hquiet
  contradiction

/-! ## Writes -/

/-- Whether a write fails or not, the model follows the store. -/
theorem advance_patch (h : Sound t st) (old new : List Quad) (hold : ∀ q ∈ old, q.fault? = none)
    (hnew : ∀ q ∈ new, q.fault? = none) {follow : Model → Model}
    (hfollow : follow t.model = (t.model.erase old).put new) (operation : Nat) :
    Advance 0 1 1 (t, st)
      (t.wrote operation (st.patch old new).1 follow, (st.patch old new).2) := by
  have hfilled {qs : List Quad} (hqs : ∀ q ∈ qs, q.fault? = none) :
      ∀ q ∈ qs.map (Store.fillContext st.defaultContext), q.fault? = none := by
    intro q hq
    obtain ⟨p, hp, rfl⟩ := List.mem_map.1 hq
    exact Store.fault?_fillContext h.context (hqs p hp)
  have htended := Store.tended_patch h.tended old new
  rcases (h.mirrors.patch_meets old new).ok_or_error with ⟨_, hok, hk, hm⟩ | ⟨e, he, hk, hm⟩
  · rw [hok, wrote]
    rw [← hfollow] at hm
    have hsound : Sound { t with model := follow t.model } (st.patch old new).2 :=
      ⟨hm, htended, hk.defaultContext ▸ h.context, h.clean, h.quiet⟩
    have hstep := hsound.advance_succeed (Store.Kept.refl _)
    exact ⟨hstep.sound, rfl, hk, rfl, hstep.least, hstep.most⟩
  · rw [he, wrote]
    have hsound : Sound t (st.patch old new).2 :=
      ⟨hm, htended, hk.defaultContext ▸ h.context, h.clean, h.quiet⟩
    exact hsound.advance_fail hk (Store.explains_patch h.tended (hfilled hold) (hfilled hnew) he)
      operation

/-! ## Queries -/

theorem get_meets (h : Sound t st) {p : Pattern} (hp : p.fault? = none) {plan : Plan}
    (hplan : st.plan p = .ok plan) (page : Paging) (hcount : st.Countable page) :
    (st.get p page).Meets
      (fun qs st' => qs = page.slice (t.model.answer plan) ∧ Store.Kept st st' ∧ Sound t st')
      (fun e st' => t.settings.rates.Explains e ∧ Store.Kept st st' ∧ Sound t st') := by
  have hsound {st' : TrialStore} (hread : Store.Read st st')
      (ht : Tended t.settings.rates none st'.engine) : Sound t st' :=
    ⟨h.mirrors.of_read hread, ht, hread.defaultContext ▸ h.context, h.clean, h.quiet⟩
  refine ((h.mirrors.get_page_meets hp hplan hcount).and_store
    (R := fun st' => Tended t.settings.rates none st'.engine)
    (Store.tended_get h.tended p page)).imp ?_ ?_
  · rintro qs st' ⟨⟨hqs, hread⟩, ht⟩
    exact ⟨hqs, hread.toKept, hsound hread ht⟩
  · rintro e st' ⟨⟨⟨hloud, hreason⟩, hread⟩, ht⟩
    exact ⟨⟨h.tended.injects_of_not_quiet hloud, hreason⟩, hread.toKept, hsound hread ht⟩

theorem advance_page (h : Sound t st) {p : Pattern} (hp : p.fault? = none) {plan : Plan}
    (hplan : st.plan p = .ok plan) {page : Paging} (hpage : Workload.IsNear page)
    (operation : Nat) :
    Advance 0 0 1 (t, st) (t.auditPage st operation p page (t.model.answer plan)) := by
  rw [auditPage]
  split
  · exact (Advance.refl (x := (t, st)) h).loosen (Nat.le_refl 0) (Nat.zero_le 1)
  · have hget := h.get_meets hp hplan page (.inl hpage.reach_le)
    split
    · next e st' heq =>
      rw [heq] at hget
      obtain ⟨he, hk, hsound⟩ := hget
      exact (hsound.advance_fail hk he operation).loosen (Nat.zero_le 1) (Nat.le_refl 1)
    · next paged st' heq =>
      rw [heq] at hget
      obtain ⟨rfl, hk, hsound⟩ := hget
      rw [Audit.paging_eq_nil_iff.2 rfl, found_nil]
      exact (hsound.advance_succeed hk).loosen (Nat.zero_le 1) (Nat.le_refl 1)

theorem advance_query (h : Sound t st) {p : Pattern} (hp : p.fault? = none) {page : Paging}
    (hpage : Workload.IsNear page) (operation : Nat) :
    Advance 0 1 2 (t, st) (t.auditQuery st operation p page) := by
  obtain ⟨plan, hplan, hbranches, -⟩ := Store.plan_eq_ok hp st
  have hget := h.get_meets hp hplan {} (.inl nofun)
  rw [auditQuery]
  split
  · next e st' heq =>
    rw [heq] at hget
    obtain ⟨he, hk, hsound⟩ := hget
    exact (hsound.advance_fail hk he operation).loosen (Nat.le_refl 1) (Nat.le_succ 1)
  · next full st' heq =>
    rw [heq] at hget
    obtain ⟨rfl, hk, hsound⟩ := hget
    have hfound : Audit.query p (t.model.answer plan) t.model = [] :=
      (Audit.query_eq_nil_iff h.mirrors.ascending).2 fun q =>
        Model.mem_answer_iff_mem_expected hbranches
    rw [Paging.slice_default, hfound, found_nil]
    have hfirst := hsound.advance_succeed hk
    have hplan' : st'.plan p = .ok plan := by
      rw [Store.plan, hk.registry]
      exact hplan
    exact hfirst.trans (hfirst.sound.advance_page hp hplan' hpage operation)

/-! ## Runs -/

theorem advance_apply (h : Sound t st) {op : Operation} (hop : Workload.Suits op)
    (operation : Nat) : Advance 0 1 2 (t, st) (t.apply st operation op) := by
  cases op with
  | put qs =>
      exact (h.advance_patch [] qs nofun hop rfl operation).loosen (Nat.le_refl 1)
        (Nat.le_succ 1)
  | erase qs =>
      exact (h.advance_patch qs [] hop nofun rfl operation).loosen (Nat.le_refl 1)
        (Nat.le_succ 1)
  | query p page =>
      have hreset : Sound t { st with engine := st.engine.resetCounters } :=
        ⟨h.mirrors.of_kept ⟨rfl, rfl⟩ rfl, h.tended.resetCounters, h.context, h.clean, h.quiet⟩
      have hquery := hreset.advance_query hop.1 hop.2 operation
      rw [apply]
      dsimp only
      rw [Audit.cursors_eq_nil_iff.2 ⟨hquery.sound.tended.openCursors,
        hquery.sound.tended.maxOpenCursors⟩, found_nil]
      exact ⟨hquery.sound, hquery.settings, ⟨hquery.kept.registry, hquery.kept.defaultContext⟩,
        hquery.processed, hquery.least, hquery.most⟩

/-- Each operation asks the store once, or twice if a page is asked for. -/
theorem advance_operate (h : Sound t st)
    (hpool : t.settings.workload.valuePoolSize ≤ Paging.maxCount) (first n : Nat) :
    Advance n n (2 * n) (t, st) (t.operate st first n) := by
  induction n generalizing t st first with
  | zero => exact .refl (x := (t, st)) h
  | succ n ih =>
      let drawn := Workload.operation t.settings.workload t.chance
      let begun : Trial := { t with chance := drawn.2, processed := t.processed + 1 }
      have hbegun : Advance 1 0 0 (t, st) (begun, st) :=
        ⟨⟨h.mirrors, h.tended, h.context, h.clean, h.quiet⟩, rfl, Store.Kept.refl st, rfl,
          Nat.le_refl _, Nat.le_refl _⟩
      have hop : Workload.Suits drawn.1 := Workload.always_operation hpool t.chance
      have hfirst : Advance 1 1 2 (t, st) (begun.apply st first drawn.1) :=
        hbegun.trans (hbegun.sound.advance_apply hop first)
      rw [← hfirst.settings] at hpool
      have hall := hfirst.trans (ih hfirst.sound hpool (first + 1))
      rw [Nat.add_comm 1 n, Nat.add_comm 2] at hall
      exact hall

end Sound
end Trial

/-! ## The model along a run -/

/-- What an operation makes of a model. -/
def Operation.follow : Operation → Model → Model
  | .put qs, m => m.put qs
  | .erase qs, m => m.erase qs
  | .query .., m => m

namespace Trial

variable {t : Trial}

def drawn (t : Trial) (n : Nat) : List Operation :=
  (Chance.times (Workload.operation t.settings.workload) n t.chance).1

/-- A trial whose model has not moved. -/
structure Still (t t' : Trial) : Prop where
  settings : t'.settings = t.settings
  chance : t'.chance = t.chance
  model : t'.model = t.model
  failed : t.failed ≤ t'.failed

/-- A trial after an operation: its model has followed, or the operation failed. -/
inductive Follows (op : Operation) (t t' : Trial) : Prop
  | done (settings : t'.settings = t.settings) (chance : t'.chance = t.chance)
      (model : t'.model = op.follow t.model) (failed : t.failed ≤ t'.failed)
  | failed (still : Still t t') (failed : t.failed < t'.failed)

theorem Follows.drawn_eq {op : Operation} {t' : Trial} (h : Follows op t t') (n : Nat) :
    t'.drawn n = t.drawn n := by
  cases h with
  | done hsettings hchance => rw [drawn, drawn, hsettings, hchance]
  | failed hstill => rw [drawn, drawn, hstill.settings, hstill.chance]

theorem follows_wrote (t : Trial) (operation : Nat) (outcome : Except StoreError Unit)
    (op : Operation) : Follows op t (t.wrote operation outcome op.follow) := by
  cases outcome with
  | ok => exact .done rfl rfl rfl (Nat.le_refl _)
  | error e => exact .failed ⟨rfl, rfl, rfl, Nat.le_succ _⟩ (Nat.lt_succ_self _)

theorem still_auditPage (t : Trial) (st : TrialStore) (operation : Nat) (p : Pattern)
    (page : Paging) (full : List Quad) : Still t (t.auditPage st operation p page full).1 := by
  rw [auditPage]
  split
  · exact ⟨rfl, rfl, rfl, Nat.le_refl _⟩
  · split
    · exact ⟨rfl, rfl, rfl, Nat.le_succ _⟩
    · exact ⟨rfl, rfl, rfl, Nat.le_refl _⟩

theorem still_auditQuery (t : Trial) (st : TrialStore) (operation : Nat) (p : Pattern)
    (page : Paging) : Still t (t.auditQuery st operation p page).1 := by
  rw [auditQuery]
  split
  · exact ⟨rfl, rfl, rfl, Nat.le_succ _⟩
  · next full st' _ =>
    have hpage := still_auditPage (t.succeed.found operation (Audit.query p full t.model)) st'
      operation p page full
    exact ⟨hpage.settings, hpage.chance, hpage.model, hpage.failed⟩

theorem follows_apply (t : Trial) (st : TrialStore) (operation : Nat) (op : Operation) :
    Follows op t (t.apply st operation op).1 := by
  cases op with
  | put qs => exact t.follows_wrote operation (st.put qs).1 (.put qs)
  | erase qs => exact t.follows_wrote operation (st.erase qs).1 (.erase qs)
  | query p page =>
      have hquery := t.still_auditQuery { st with engine := st.engine.resetCounters } operation p
        page
      exact .done hquery.settings hquery.chance hquery.model hquery.failed

/-- A run leaves out drawn operations only where they failed. -/
theorem model_operate (t : Trial) (st : TrialStore) (first n : Nat) :
    ∃ done : List Operation, done.Sublist (t.drawn n) ∧
      n + t.failed ≤ done.length + (t.operate st first n).1.failed ∧
      (t.operate st first n).1.model = done.foldl (fun m op => op.follow m) t.model := by
  induction n generalizing t st first with
  | zero => exact ⟨[], List.nil_sublist _, Nat.le_refl _, rfl⟩
  | succ n ih =>
      let op := Workload.operation t.settings.workload t.chance
      let begun : Trial := { t with chance := op.2, processed := t.processed + 1 }
      let next := begun.apply st first op.1
      have hdrawn : t.drawn (n + 1) = op.1 :: begun.drawn n := rfl
      have hstep : Follows op.1 begun next.1 := begun.follows_apply st first op.1
      obtain ⟨done, hsub, hcount, hmodel⟩ := ih next.1 next.2 (first + 1)
      change ∃ done : List Operation, _ ∧ _ ≤ _ + (next.1.operate next.2 (first + 1) n).1.failed ∧
        (next.1.operate next.2 (first + 1) n).1.model = _
      rw [hdrawn]
      rw [hstep.drawn_eq] at hsub
      have hbegun : begun.failed = t.failed := rfl
      cases hstep with
      | done _ _ hfollowed hfailed =>
          refine ⟨op.1 :: done, hsub.cons_cons _, ?_, ?_⟩
          · rw [List.length_cons]
            omega
          · rw [hmodel, hfollowed]
            rfl
      | failed hstill hfailed =>
          refine ⟨done, hsub.cons _, ?_, ?_⟩
          · omega
          · rw [hmodel, hstill.model]

/-! ## First runs -/

theorem sound_make {s : TrialSettings} {st : TrialStore}
    (h : Store.make (FaultyEngine.make s.engineWords s.rates) s.store = .ok st) :
    Sound (make s) st := by
  have hmirrors := Store.mirrors_of_make rfl h
  rw [Store.make] at h
  split at h
  · contradiction
  · next hcontext =>
    obtain rfl := Except.ok.inj h
    exact ⟨hmirrors, FaultyEngine.tended_make _ _, hcontext, rfl, fun _ => rfl⟩

theorem run_eq {t : Trial} {st : TrialStore}
    (h : Store.make (FaultyEngine.make t.settings.engineWords t.settings.rates) t.settings.store =
      .ok st) (n : Nat) :
    let last := ({ t with model := .empty t.settings.store.defaultContext } : Trial).operate st 0 n
    t.run n = (last.1.report true none, last.1) := by
  rw [run]
  dsimp only
  rw [h]

/-- Whatever is drawn and whatever fails, a first run comes to its end without a finding. It asks
the store once or twice for each operation, fails only by faults that were called for, and leaves
the engine with the quads that the drawn operations come to when the writes that failed are left
out. It counts these quads. Settings have sizes of 64 bits. -/
theorem run_finds_nothing (s : TrialSettings) (n : Nat) (st : TrialStore)
    (hpool : s.workload.valuePoolSize ≤ Paging.maxCount)
    (hst : Store.make (FaultyEngine.make s.engineWords s.rates) s.store = .ok st) :
    let last := (make s).operate st 0 n
    let report := ((make s).run n).1
    (make s).run n = (last.1.report true none, last.1) ∧
      report.completed = true ∧ report.failure = none ∧ report.violations = [] ∧
      report.processed = n ∧ n ≤ report.succeeded + report.failed ∧
      report.succeeded + report.failed ≤ 2 * n ∧
      (s.rates.read.isPositive = false → s.rates.write.isPositive = false → report.failed = 0) ∧
      last.2.registry = s.store.registry ∧
      ∃ done : List Operation, done.Sublist ((make s).drawn n) ∧
        n ≤ done.length + report.failed ∧
        ∃ qs : List Quad,
          qs = (done.foldl (fun m op => op.follow m) (Model.empty s.store.defaultContext)).quads ∧
          qs.Nodup ∧ qs.length = report.finalQuads ∧
          (∀ i ∈ last.2.registry.indexes, ∀ q, last.2.HoldsUnder i q ↔ q ∈ qs) ∧
          last.2.engine.table.Holds last.2.registry.indexes qs := by
  intro last report
  have hrun : (make s).run n = (last.1.report true none, last.1) :=
    run_eq (t := make s) hst n
  have hreport : report = last.1.report true none := congrArg Prod.fst hrun
  have hadvance := (sound_make hst).advance_operate hpool 0 n
  have hsound := hadvance.sound
  have hleast : 0 + n ≤ _ := hadvance.least
  have hmost : _ ≤ 0 + 2 * n := hadvance.most
  rw [Nat.zero_add] at hleast hmost
  have hregistry : st.registry = s.store.registry := by
    rw [Store.make] at hst
    split at hst
    · contradiction
    · rw [← Except.ok.inj hst]
  obtain ⟨done, hsub, hdone, hmodel⟩ := (make s).model_operate st 0 n
  rw [hreport]
  refine ⟨hrun, rfl, rfl, hsound.clean, hadvance.processed.trans (Nat.zero_add n), hleast, hmost,
    ?_, hadvance.kept.registry.trans hregistry, done, hsub, hdone, _,
    congrArg Model.quads hmodel, hsound.mirrors.ascending.nodup, rfl,
    fun i hi q => hsound.mirrors.holdsUnder_iff hi, hsound.mirrors.holds⟩
  intro hread hwrite
  refine hsound.quiet ?_
  rw [hadvance.settings]
  exact Bool.or_eq_false_iff.2 ⟨hread, hwrite⟩

/-- Three hundred operations, with rates that call for faults of both kinds. -/
theorem seeded_run_passes :
    let s := TrialSettings.seeded 999 .high .standard .standard
    s.workload.valuePoolSize ≤ Paging.maxCount ∧
      (∃ st, Store.make (FaultyEngine.make s.engineWords s.rates) s.store = .ok st) ∧
      s.rates.read.isPositive = true ∧ s.rates.write.isPositive = true ∧
      ((make s).run 300).1.passed = true ∧ ((make s).run 300).1.processed = 300 := by
  intro s
  have hpool : s.workload.valuePoolSize ≤ Paging.maxCount := by decide
  have hmade (e : FaultyEngine) : Store.make e .standard =
      .ok ⟨e, .standard, Settings.defaultContextName, []⟩ := rfl
  obtain ⟨-, hcompleted, -, hclean, hprocessed, -⟩ := run_finds_nothing s 300 _ hpool (hmade _)
  refine ⟨hpool, ⟨_, hmade _⟩, rfl, rfl, ?_, hprocessed⟩
  rw [TrialReport.passed, hcompleted, hclean]
  rfl

end Trial
end QuadIndex
