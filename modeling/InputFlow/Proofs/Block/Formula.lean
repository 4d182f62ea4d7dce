import InputFlow.Proofs.FactMap

namespace InputFlow

/-- Where a fact is taken from: the facts on entry to the block, or the instructions of the block. -/
inductive Origin where
  | entry (v : ValueId)
  | result (v : ValueId)
deriving DecidableEq

def Origin.value : Origin → ValueId
  | entry v => v
  | result v => v

/-- The join of a fixed fact with the facts of some origins. -/
structure Formula where
  base : Dep
  origins : List Origin

namespace Formula

def fixed (a : Dep) : Formula :=
  ⟨a, []⟩

def ofOrigin (o : Origin) : Formula :=
  ⟨.unknown, [o]⟩

def join (f g : Formula) : Formula :=
  ⟨f.base ⊔ g.base, f.origins ++ g.origins⟩

def sum (fs : List Formula) : Formula :=
  fs.foldr join (fixed .unknown)

def sources (f : Formula) : List ValueId :=
  f.origins.map Origin.value

/-- The fact that a formula stands for, given the facts of the origins. -/
def eval (ρ : Origin → Dep) (f : Formula) : Dep :=
  f.origins.foldr (fun o a => ρ o ⊔ a) f.base

variable {ρ ρ' : Origin → Dep} {f g : Formula} {a : Dep}

theorem eval_le_iff : f.eval ρ ≤ a ↔ f.base ≤ a ∧ ∀ o ∈ f.origins, ρ o ≤ a := by
  obtain ⟨base, origins⟩ := f
  simp only [eval]
  induction origins with
  | nil => simp
  | cons o origins ih =>
    rw [List.foldr_cons, sup_le_iff, ih]
    simp only [List.forall_mem_cons]
    exact and_left_comm

theorem base_le_eval (ρ : Origin → Dep) (f : Formula) : f.base ≤ f.eval ρ :=
  (eval_le_iff.1 (le_refl _)).1

theorem origin_le_eval {o : Origin} (h : o ∈ f.origins) : ρ o ≤ f.eval ρ :=
  (eval_le_iff.1 (le_refl _)).2 o h

theorem eval_mono (h : ∀ o ∈ f.origins, ρ o ≤ ρ' o) : f.eval ρ ≤ f.eval ρ' :=
  eval_le_iff.2 ⟨base_le_eval ρ' f, fun o ho => (h o ho).trans (origin_le_eval ho)⟩

theorem eval_congr (h : ∀ o ∈ f.origins, ρ o = ρ' o) : f.eval ρ = f.eval ρ' :=
  le_antisymm (eval_mono fun o ho => (h o ho).le) (eval_mono fun o ho => (h o ho).ge)

@[simp] theorem eval_fixed (ρ : Origin → Dep) (a : Dep) : (fixed a).eval ρ = a := rfl

@[simp] theorem eval_ofOrigin (ρ : Origin → Dep) (o : Origin) : (ofOrigin o).eval ρ = ρ o := by
  simp [ofOrigin, eval]

@[simp] theorem eval_join (ρ : Origin → Dep) (f g : Formula) :
    (f.join g).eval ρ = f.eval ρ ⊔ g.eval ρ := by
  refine eq_of_forall_ge_iff fun c => ?_
  rw [sup_le_iff, eval_le_iff, eval_le_iff, eval_le_iff]
  simp only [join, sup_le_iff, List.mem_append, or_imp, forall_and]
  exact and_and_and_comm

@[simp] theorem sources_fixed (a : Dep) : (fixed a).sources = [] := rfl

@[simp] theorem sources_ofOrigin (o : Origin) : (ofOrigin o).sources = [o.value] := rfl

@[simp] theorem sources_join (f g : Formula) : (f.join g).sources = f.sources ++ g.sources := by
  simp [sources, join]

@[simp] theorem sum_nil : sum [] = fixed .unknown := rfl

@[simp] theorem sum_cons (f : Formula) (fs : List Formula) : sum (f :: fs) = f.join (sum fs) := rfl

theorem mem_origins_sum {fs : List Formula} {o : Origin} :
    o ∈ (sum fs).origins ↔ ∃ f ∈ fs, o ∈ f.origins := by
  induction fs with
  | nil => simp [sum, fixed]
  | cons f fs ih =>
    rw [sum_cons, join, List.mem_append, ih]
    simp

theorem eval_sum_le_iff {fs : List Formula} : (sum fs).eval ρ ≤ a ↔ ∀ f ∈ fs, f.eval ρ ≤ a := by
  induction fs with
  | nil => simp [Fact.unknown_le]
  | cons f fs ih => simp [ih]

theorem eval_sum (ρ : Origin → Dep) (fs : List Formula) :
    (sum fs).eval ρ = Fact.joinAll (fs.map (eval ρ)) :=
  eq_of_forall_ge_iff fun c => by rw [eval_sum_le_iff, Fact.joinAll_le_iff, List.forall_mem_map]

theorem eval_sum_append (ρ : Origin → Dep) (fs gs : List Formula) :
    (sum (fs ++ gs)).eval ρ = (sum fs).eval ρ ⊔ (sum gs).eval ρ := by
  induction fs with
  | nil => simp
  | cons f fs ih => simp [ih, sup_assoc]

end Formula

end InputFlow
