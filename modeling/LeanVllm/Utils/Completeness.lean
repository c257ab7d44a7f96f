import LeanVllm.Utils.LoaderBlocks

/-!
# Complete checkpoints

What `load_model` writes is what the checkpoint's tensors fill.  `check_loaded` looks only
at which parameters some tensor was named for, so a returned model is complete exactly when
each of those got all its shards.
-/

namespace LeanVllm

open Collections Kernels FusedMoe

variable {R : Type}

/-- Models as the repository builds them: names of their own, parameters of its layers, and
no storage shared but by tied embeddings. -/
structure Model.Built (model : Model) : Prop where
  names : (model.parameters.map Parameter.name).Nodup
  loaders : ∀ param ∈ model.parameters, param.loader.Built
  tied : ∀ param ∈ model.parameters, ∀ other ∈ model.parameters, param.dataPtr = other.dataPtr →
    param = other ∨ (∃ embedding, param.loader = .vocabParallel embedding ∧
      other.loader = .vocabParallel embedding) ∨
    -- parameters without an element have no storage
    (∀ i, param.loader.inside i = false) ∧ ∀ i, other.loader.inside i = false

namespace Model

variable {model : Model} {checkpoint : List (WeightName × LoadedWeight R)}

/-- A tensor that `load_model` leaves out or that its parameter's loader accepts. -/
def Fits (model : Model) (entry : WeightName × LoadedWeight R) : Prop :=
  ∀ name shard, model.target entry.1 = some (name, shard) →
    ∃ param ∈ model.parameters, param.name = name ∧ (param.loader.load entry.2 shard).isSome

/-- Some tensor is named for the parameter. -/
def Named (model : Model) (checkpoint : List (WeightName × LoadedWeight R)) (name : WeightName) :
    Prop :=
  ∃ entry ∈ checkpoint, ∃ shard, model.target entry.1 = some (name, shard)

/-- No tensor is named for the parameter or for one that shares its storage. -/
def Unnamed (model : Model) (checkpoint : List (WeightName × LoadedWeight R))
    (param : Parameter) : Prop :=
  ∀ other ∈ model.parameters, other.dataPtr = param.dataPtr → ¬ model.Named checkpoint other.name

/-- Each of the parameter's shards that goes anywhere on this rank is in the checkpoint. -/
def AllShards (model : Model) (checkpoint : List (WeightName × LoadedWeight R))
    (param : Parameter) : Prop :=
  ∀ shard, (param.loader.block shard).isSome →
    ∃ entry ∈ checkpoint, model.target entry.1 = some (param.name, shard)

/-- An element that some tensor fills. -/
def Fills (model : Model) (checkpoint : List (WeightName × LoadedWeight R)) (i : Nat × Place) :
    Prop :=
  ∃ entry ∈ checkpoint, ∃ param ∈ model.parameters, ∃ shard block,
    model.target entry.1 = some (param.name, shard) ∧ param.dataPtr = i.1 ∧
      param.loader.block shard = some block ∧ block.Mem i.2

instance (model : Model) (entry : WeightName × LoadedWeight R) : Decidable (model.Fits entry) :=
  decidable_of_iff (∀ aim ∈ model.target entry.1, ∃ param ∈ model.parameters,
    param.name = aim.1 ∧ (param.loader.load entry.2 aim.2).isSome)
    ⟨fun fits name shard target => fits (name, shard) target,
      fun fits aim target => fits aim.1 aim.2 target⟩

instance (model : Model) (checkpoint : List (WeightName × LoadedWeight R)) (name : WeightName) :
    Decidable (model.Named checkpoint name) :=
  decidable_of_iff (∃ entry ∈ checkpoint, (model.target entry.1).map Prod.fst = some name)
    ⟨fun ⟨entry, among, aimed⟩ => by
      obtain ⟨⟨_, shard⟩, target, rfl⟩ := Option.map_eq_some_iff.mp aimed
      exact ⟨entry, among, shard, target⟩,
    fun ⟨entry, among, _, target⟩ => ⟨entry, among, by rw [target]; rfl⟩⟩

instance (model : Model) (checkpoint : List (WeightName × LoadedWeight R)) (param : Parameter) :
    Decidable (model.Unnamed checkpoint param) :=
  inferInstanceAs (Decidable (∀ other ∈ model.parameters, other.dataPtr = param.dataPtr →
    ¬ model.Named checkpoint other.name))

theorem Built.getParameter (built : model.Built) {param : Parameter}
    (among : param ∈ model.parameters) : model.getParameter param.name = some param := by
  rw [Model.getParameter]
  cases found : model.parameters.find? fun other => other.name = param.name with
  | none =>
      exact absurd (decide_eq_true rfl) (List.find?_eq_none.mp found param among)
  | some other =>
      have same : other.name = param.name := by simpa using List.find?_some found
      exact congrArg some
        (List.inj_on_of_nodup_map built.names (List.mem_of_find?_eq_some found) among same)

end Model

/-! ## A run of `load_model` -/

/-- What is written and named after some tensors. -/
structure Loading.After (model : Model) (s : Loading R)
    (done : List (WeightName × LoadedWeight R)) : Prop where
  inside : s.written.inside = (model.uninitialized : Buffer (Nat × Place) R).inside
  filled : ∀ i, (s.written.load i).isSome = true ↔ model.Fills done i
  named : ∀ name, name ∈ s.loaded ↔ model.Named done name

section Run

variable {model : Model} {s s' : Loading R} {entry : WeightName × LoadedWeight R}
  {done checkpoint : List (WeightName × LoadedWeight R)}

theorem Loading.After.init (model : Model) :
    Loading.After model (⟨model.uninitialized, []⟩ : Loading R) [] := by
  refine ⟨rfl, fun i => ?_, fun name => ?_⟩
  · refine iff_of_false ?_ ?_
    · rw [Model.uninitialized, Buffer.load, Buffer.empty]
      simp
    · rintro ⟨_, absurdly, _⟩
      exact absurd absurdly List.not_mem_nil
  · refine iff_of_false List.not_mem_nil ?_
    rintro ⟨_, absurdly, _⟩
    exact absurd absurdly List.not_mem_nil

theorem Model.fills_concat {i : Nat × Place} : model.Fills (done ++ [entry]) i ↔
    model.Fills done i ∨ model.Fills [entry] i := by
  simp only [Model.Fills, List.mem_append, or_and_right, exists_or]

theorem Model.named_concat {name : WeightName} : model.Named (done ++ [entry]) name ↔
    model.Named done name ∨ model.Named [entry] name := by
  simp only [Model.Named, List.mem_append, or_and_right, exists_or]

/-- A tensor left out fills nothing and names nothing. -/
theorem Loading.After.skip (after : s.After model done) (skipped : model.target entry.1 = none) :
    s.After model (done ++ [entry]) := by
  refine ⟨after.inside, fun i => ?_, fun name => ?_⟩
  · rw [after.filled, Model.fills_concat]
    refine (or_iff_left ?_).symm
    rintro ⟨other, own, param, _, shard, block, target, _⟩
    rw [List.mem_singleton.mp own, skipped] at target
    exact nomatch target
  · rw [after.named, Model.named_concat]
    refine (or_iff_left ?_).symm
    rintro ⟨other, own, shard, target⟩
    rw [List.mem_singleton.mp own, skipped] at target
    exact nomatch target

end Run

section Complete

variable {model : Model} {checkpoint : List (WeightName × LoadedWeight R)}

/-- Parameters that got all their shards, and those tied to them, are filled. -/
theorem Model.Built.fills (built : model.Built)
    (named : ∀ param ∈ model.parameters, ¬ model.Unnamed checkpoint param)
    (shards : ∀ param ∈ model.parameters, model.Named checkpoint param.name →
      model.AllShards checkpoint param) {param : Parameter} (among : param ∈ model.parameters)
    {i : Place} (inside : param.loader.inside i = true) :
    model.Fills checkpoint (param.dataPtr, i) := by
  have source : ∃ other ∈ model.parameters, other.dataPtr = param.dataPtr ∧
      model.Named checkpoint other.name := by
    by_contra none
    refine named param among fun other theirs ptr own => none ⟨other, theirs, ptr, own⟩
  obtain ⟨other, theirs, ptr, own⟩ := source
  have there : other.loader.inside i = true := by
    obtain rfl | ⟨embedding, first, second⟩ | ⟨empty, _⟩ :=
      built.tied param among other theirs ptr.symm
    · exact inside
    · rw [second, ← first]
      exact inside
    · rw [empty i] at inside
      exact nomatch inside
  obtain ⟨shard, block, placed, mem⟩ :=
    ((built.loaders other theirs).tiles.whole i).mp there
  obtain ⟨entry, loaded, target⟩ := shards other theirs own shard (by rw [placed]; rfl)
  exact ⟨entry, loaded, other, theirs, shard, block, target, ptr, placed, mem⟩

end Complete

end LeanVllm
