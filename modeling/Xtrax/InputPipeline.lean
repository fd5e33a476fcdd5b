import Mathlib

/-! # The shards of an input pipeline

A process reads one interval of a source.  The cut before shard `i` is a function of `i` alone
(`cut`), and a shard lies between its cut and the next one: that the shards are consecutive is then
how they are defined, and what is left is that the cuts increase, and by how much.
-/
namespace Xtrax.InputPipeline

/-- A public `grain.sharding.ShardOptions`, which refuses an index that is not below the count. -/
structure ShardOptions where
  shardIndex : Nat
  shardCount : Nat
  dropRemainder : Bool
  index_lt : shardIndex < shardCount

def shardBounds (numExamples : Nat) (options : ShardOptions) : Nat × Nat :=
  let per := numExamples / options.shardCount
  let start := per * options.shardIndex
  let stop := per * (options.shardIndex + 1)
  let unused := numExamples % options.shardCount
  if unused > 0 ∧ ¬options.dropRemainder then
    (start + min options.shardIndex unused, stop + min (options.shardIndex + 1) unused)
  else (start, stop)

/-! ## Cuts -/

section Cuts

variable (n count : Nat) (drop : Bool)

/-- The position before which shard `i` starts. -/
def cut (i : Nat) : Nat := n / count * i + if drop then 0 else min i (n % count)

/-- The interval of one process among `count`. -/
def bounds (i : Fin count) : Nat × Nat := shardBounds n ⟨i, count, drop, i.isLt⟩

theorem bounds_eq (i : Fin count) :
    bounds n count drop i = (cut n count drop i, cut n count drop (i + 1)) := by
  unfold bounds shardBounds cut
  cases drop
  · by_cases hunused : n % count > 0
    · simp [hunused]
    · simp [Nat.eq_zero_of_not_pos hunused]
  · simp

@[simp] theorem cut_zero : cut n count drop 0 = 0 := by cases drop <;> simp [cut]

theorem cut_succ (i : Nat) :
    cut n count drop (i + 1) =
      cut n count drop i + (n / count + if ¬drop ∧ i < n % count then 1 else 0) := by
  unfold cut
  have hper : n / count * (i + 1) = n / count * i + n / count := by ring
  cases drop
  · by_cases hi : i < n % count <;> simp only [hi] <;> simp <;> omega
  · simp [hper]

theorem cut_mono : Monotone (cut n count drop) :=
  monotone_nat_of_le_succ fun i => by rw [cut_succ]; exact Nat.le_add_right ..

theorem cut_count (hcount : 0 < count) :
    cut n count drop count = if drop then n - n % count else n := by
  have hdivision := Nat.div_add_mod n count
  have hlt := Nat.mod_lt n hcount
  have hcomm : n / count * count = count * (n / count) := by ring
  unfold cut
  cases drop
  · simp only [Bool.false_eq_true, if_false, Nat.min_eq_right hlt.le]
    omega
  · simp only [if_true]
    omega

theorem iUnion_Ico_cut {f : Nat → Nat} (hf : Monotone f) (m : Nat) :
    ⋃ i : Fin m, Set.Ico (f i) (f (i + 1)) = Set.Ico (f 0) (f m) := by
  induction m with
  | zero => simp
  | succ m ih =>
    have hsplit : ⋃ i : Fin (m + 1), Set.Ico (f i) (f (i + 1)) =
        (⋃ i : Fin m, Set.Ico (f i) (f (i + 1))) ∪ Set.Ico (f m) (f (m + 1)) := by
      ext p
      simp [Fin.exists_fin_succ']
    rw [hsplit, ih]
    exact Set.Ico_union_Ico_eq_Ico (hf (Nat.zero_le m)) (hf (Nat.le_succ m))

end Cuts

/-! ## The pipeline -/

/-- How Grain orders the positions of a shard in an epoch. -/
structure Shuffle where
  order : Nat → List Nat → List Nat
  perm : ∀ epoch positions, (order epoch positions).Perm positions

structure Arguments where
  batchSize : Int
  numEpochs : Option Nat := some 1
  shuffle : Bool := true
  mpWorkers : Int := 0
  shardByProcess : Bool := false
  shardOptions : Option ShardOptions := none

/-- `_resolve_shard_options`; `byJaxProcess` is `ShardByJaxProcess(drop_remainder=True)`. -/
def resolveShardOptions (byJaxProcess : ShardOptions) (args : Arguments) : Option ShardOptions :=
  match args.shardOptions with
  | some options => some options
  | none => if args.shardByProcess then some byJaxProcess else none

/-- `ds[start:end]`. -/
def slice (positions : List Nat) (interval : Nat × Nat) : List Nat :=
  (positions.take interval.2).drop interval.1

/-- `build_input_pipeline` over a source of some length: the positions it reads in the first epochs, to
be padded and batched after that. -/
def buildInputPipeline (byJaxProcess : ShardOptions) (shuffle : Shuffle) (length : Nat)
    (args : Arguments) (epochs : Nat) : Except String (List Nat) :=
  if args.batchSize ≤ 0 then .error s!"batch_size must be positive, got {args.batchSize}."
  else if args.mpWorkers < 0 then .error s!"mp_workers must be >= 0, got {args.mpWorkers}."
  else
    let ds := match resolveShardOptions byJaxProcess args with
      | some options => slice (List.range length) (shardBounds length options)
      | none => List.range length
    let epochs := match args.numEpochs with
      | some numEpochs => min numEpochs epochs
      | none => epochs
    .ok ((List.range epochs).flatMap fun epoch => if args.shuffle then shuffle.order epoch ds else ds)

theorem mem_slice_range {p length : Nat} {interval : Nat × Nat}
    (h : p ∈ slice (List.range length) interval) : p ∈ Set.Ico interval.1 interval.2 := by
  rw [slice, List.take_range, List.range_eq_range', List.drop_range', List.mem_range'_1] at h
  rw [Set.mem_Ico]
  omega

theorem mem_bounds_of_read {byJaxProcess options : ShardOptions} {shuffle : Shuffle} {length : Nat}
    {args : Arguments} {epochs : Nat} {positions : List Nat} {p : Nat}
    (hoptions : resolveShardOptions byJaxProcess args = some options)
    (h : buildInputPipeline byJaxProcess shuffle length args epochs = .ok positions)
    (hp : p ∈ positions) :
    p ∈ Set.Ico (shardBounds length options).1 (shardBounds length options).2 := by
  unfold buildInputPipeline at h
  rw [hoptions] at h
  by_cases hbatch : args.batchSize ≤ 0
  · simp [hbatch] at h
  · by_cases hworkers : args.mpWorkers < 0
    · simp [hbatch, hworkers] at h
    · simp only [hbatch, hworkers, if_false, Except.ok.injEq] at h
      rw [← h, List.mem_flatMap] at hp
      obtain ⟨epoch, -, hp⟩ := hp
      cases hshuffle : args.shuffle
      · rw [hshuffle] at hp
        exact mem_slice_range hp
      · rw [hshuffle] at hp
        exact mem_slice_range ((shuffle.perm epoch _).mem_iff.mp hp)

/-- **The processes' shards partition the data.**  They are consecutive intervals from 0 on.  They cover
all examples, and their lengths differ by one at most; or all have one length, and what is left out is
a last part that is shorter than the number of processes.  No two processes read one example. -/
theorem shards_partition (n count : Nat) (drop : Bool) (hcount : 0 < count) :
    (bounds n count drop ⟨0, hcount⟩).1 = 0 ∧
    (∀ i, (bounds n count drop i).1 ≤ (bounds n count drop i).2) ∧
    (∀ i j : Fin count, (j : Nat) = i + 1 → (bounds n count drop i).2 = (bounds n count drop j).1) ∧
    (∀ i j, i ≠ j → Disjoint (Set.Ico (bounds n count drop i).1 (bounds n count drop i).2)
      (Set.Ico (bounds n count drop j).1 (bounds n count drop j).2)) ∧
    (drop = false → ⋃ i, Set.Ico (bounds n count drop i).1 (bounds n count drop i).2 = Set.Ico 0 n ∧
      ∀ i j, (bounds n count drop i).2 - (bounds n count drop i).1 ≤
        (bounds n count drop j).2 - (bounds n count drop j).1 + 1) ∧
    (drop = true → (∀ i, (bounds n count drop i).2 - (bounds n count drop i).1 = n / count) ∧
      ⋃ i, Set.Ico (bounds n count drop i).1 (bounds n count drop i).2 =
        Set.Ico 0 (n - n % count)) ∧
    ∀ (i j : Fin count) (byJaxProcess : Fin count → ShardOptions) (shuffle : Fin count → Shuffle)
      (args : Fin count → Arguments) (epochs : Fin count → Nat) (ps qs : List Nat) (p : Nat),
      (∀ k, resolveShardOptions (byJaxProcess k) (args k) = some ⟨k, count, drop, k.isLt⟩) →
      buildInputPipeline (byJaxProcess i) (shuffle i) n (args i) (epochs i) = .ok ps →
      buildInputPipeline (byJaxProcess j) (shuffle j) n (args j) (epochs j) = .ok qs →
      p ∈ ps → p ∈ qs → i = j := by
  have hmono := cut_mono n count drop
  have hdisjoint (i j : Fin count) (hne : i ≠ j) :
      Disjoint (Set.Ico (bounds n count drop i).1 (bounds n count drop i).2)
        (Set.Ico (bounds n count drop j).1 (bounds n count drop j).2) := by
    rw [bounds_eq, bounds_eq]
    exact hmono.pairwise_disjoint_on_Ico_succ fun h => hne (Fin.ext h)
  have hcover : ⋃ i, Set.Ico (bounds n count drop i).1 (bounds n count drop i).2 =
      Set.Ico 0 (if drop then n - n % count else n) := by
    simp only [bounds_eq]
    rw [iUnion_Ico_cut hmono, cut_zero, cut_count n count drop hcount]
  refine ⟨?_, ?_, ?_, hdisjoint, ?_, ?_, ?_⟩
  · rw [bounds_eq]
    exact cut_zero n count drop
  · intro i
    rw [bounds_eq]
    exact hmono (Nat.le_succ i)
  · intro i j hj
    rw [bounds_eq, bounds_eq, hj]
  · rintro rfl
    refine ⟨by simpa using hcover, fun i j => ?_⟩
    simp only [bounds_eq, cut_succ]
    split <;> split <;> omega
  · rintro rfl
    refine ⟨fun i => ?_, by simpa using hcover⟩
    simp only [bounds_eq, cut_succ]
    simp
  · intro i j byJaxProcess shuffle args epochs ps qs p hoptions hi hj hp hq
    by_contra hne
    exact Set.disjoint_left.mp (hdisjoint i j hne) (mem_bounds_of_read (hoptions i) hi hp)
      (mem_bounds_of_read (hoptions j) hj hq)

/-- Two processes on five examples. -/
theorem shards_partition_two : (0 : Nat) < 2 ∧ ∀ i j, i ≠ j →
    Disjoint (Set.Ico (bounds 5 2 false i).1 (bounds 5 2 false i).2)
      (Set.Ico (bounds 5 2 false j).1 (bounds 5 2 false j).2) :=
  ⟨by decide, (shards_partition 5 2 false (by decide)).2.2.2.1⟩

example : [bounds 7 3 false 0, bounds 7 3 false 1, bounds 7 3 false 2] = [(0, 3), (3, 5), (5, 7)] := by
  decide

end Xtrax.InputPipeline
