import QuadIndex.Index.Basic

/-! The indexes that a store keeps: at least one, under different names, in the order in which they
are preferred. -/

namespace QuadIndex

inductive RegistryError where
  | noViableIndex
  | duplicateName (name : String)
  | invalidIndex (reason : String)
  deriving DecidableEq

def RegistryError.message : RegistryError → String
  | noViableIndex => "no index is registered"
  | duplicateName name => s!"an index named {name} already exists"
  | invalidIndex reason => s!"invalid index: {reason}"

def RegistryError.ofFault (f : IndexFault) : RegistryError := .invalidIndex f.message

structure Registry where
  indexes : List Index
  nonempty : indexes ≠ []
  distinct : (indexes.map Index.name).Nodup
  deriving DecidableEq

namespace Registry

def names (r : Registry) : List String := r.indexes.map Index.name

def get? (r : Registry) (name : String) : Option Index := r.indexes.find? (·.name = name)

def first (r : Registry) : Index := r.indexes.head r.nonempty

def size (r : Registry) : Nat := r.indexes.length

theorem not_mem_names {is : List Index} {name : String}
    (h : ¬ ∃ i ∈ is, i.name = name) : name ∉ is.map Index.name := by
  intro hm
  obtain ⟨i, hi, hn⟩ := List.mem_map.1 hm
  exact h ⟨i, hi, hn⟩

theorem distinct_append {is : List Index} {i : Index} (hd : (is.map Index.name).Nodup)
    (h : ¬ ∃ j ∈ is, j.name = i.name) : ((is ++ [i]).map Index.name).Nodup := by
  rw [List.map_append, List.nodup_append]
  refine ⟨hd, by simp, fun a ha b hb => ?_⟩
  rintro rfl
  rw [List.map_cons, List.map_nil, List.mem_singleton] at hb
  exact not_mem_names h (hb ▸ ha)

def register (r : Registry) (i : Index) : Except RegistryError Registry :=
  if h : ∃ j ∈ r.indexes, j.name = i.name then .error (.duplicateName i.name)
  else .ok ⟨r.indexes ++ [i], by simp, distinct_append r.distinct h⟩

def registerAll (r : Registry) : List Index → Except RegistryError Registry
  | [] => .ok r
  | i :: is => do registerAll (← r.register i) is

def single (i : Index) : Registry := ⟨[i], by simp, by simp⟩

/-- The registry of a list, which must not be empty. -/
def ofList : List Index → Except RegistryError Registry
  | [] => .error .noViableIndex
  | i :: is => (single i).registerAll is

/-- Orders that begin with every single place and with most pairs of places. -/
def standardOrders : List (List Term) :=
  [[.subject, .predicate, .object, .context],
   [.object, .context, .subject, .predicate],
   [.context, .subject, .predicate, .object],
   [.object, .subject, .predicate, .context],
   [.predicate, .object, .context, .subject],
   [.context, .predicate, .object, .subject]]

def standardIndexes : List Index :=
  standardOrders.filterMap fun ts => (Index.ofTerms ts).toOption

def standard : Registry := ⟨standardIndexes, by decide, by decide⟩

end Registry
end QuadIndex
