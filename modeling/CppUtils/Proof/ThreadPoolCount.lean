import CppUtils.ThreadPool
import Mathlib.Data.List.Basic

/-!
# How many threads a pool has

`init` only ever adds, as many threads as the request it follows asks for, so a pool holds the sum
of what its constructor and all its requests asked for, the number of `ThreadPool(numThreads)`
counting twice. `getNumThreads` is the last request alone.
-/

namespace CppUtils.ThreadPool

/-- A request, clamped to the range from 0 to `kMaxNumThreads`. -/
def clamped (num : Int) : Nat := (min num kMaxNumThreads).toNat

theorem clamped_le (num : Int) : (clamped num : Int) ≤ kMaxNumThreads := by
  unfold clamped kMaxNumThreads
  omega

theorem clamped_eq_zero_iff {num : Int} : clamped num = 0 ↔ num ≤ 0 := by
  unfold clamped kMaxNumThreads
  omega

/-- No thread of the pool runs yet. -/
def Fresh (pool : ThreadPool) : Prop := ∀ t ∈ pool._threads, t._started = false

theorem foldl_pushThread (l : List Nat) (pool : ThreadPool) :
    l.foldl pushThread pool = { pool with
      _threads := pool._threads ++ l.map fun i => Thread.new (bytes "ThreadPool" ++ buf i) } := by
  induction l generalizing pool with
  | nil => simp
  | cons i l ih => simp [ih, pushThread]

theorem init_spec (pool : ThreadPool) :
    ∃ added, pool.init = { pool with _threads := pool._threads ++ added } ∧
      added.length = pool._numThreads.toNat ∧ ∀ t ∈ added, t._started = false := by
  refine ⟨_, foldl_pushThread _ pool, by simp, fun t ht => ?_⟩
  obtain ⟨i, -, rfl⟩ := List.mem_map.mp ht
  rfl

theorem init_numThreads (pool : ThreadPool) : pool.init._numThreads = pool._numThreads := by
  obtain ⟨added, hinit, -⟩ := pool.init_spec
  rw [hinit]

theorem length_init (pool : ThreadPool) :
    pool.init._threads.length = pool._threads.length + pool._numThreads.toNat := by
  obtain ⟨added, hinit, hlength, -⟩ := pool.init_spec
  rw [hinit, List.length_append, hlength]

theorem Fresh.init {pool : ThreadPool} (h : pool.Fresh) : pool.init.Fresh := by
  obtain ⟨added, hinit, -, hadded⟩ := pool.init_spec
  rw [hinit]
  intro t ht
  rcases List.mem_append.mp ht with ht | ht
  · exact h t ht
  · exact hadded t ht

theorem setNumThreads_eq (pool : ThreadPool) (num : Int) :
    pool.setNumThreads num = ThreadPool.init { pool with _numThreads := clamped num } := by
  have hclamped : (clamped num : Int) =
      if num > kMaxNumThreads then kMaxNumThreads else if num < 0 then 0 else num := by
    unfold clamped kMaxNumThreads
    split_ifs <;> omega
  unfold setNumThreads
  rw [hclamped]
  split_ifs <;> rfl

@[simp] theorem setNumThreads_numThreads (pool : ThreadPool) (num : Int) :
    (pool.setNumThreads num)._numThreads = clamped num := by
  rw [setNumThreads_eq, init_numThreads]

@[simp] theorem length_setNumThreads (pool : ThreadPool) (num : Int) :
    (pool.setNumThreads num)._threads.length = pool._threads.length + clamped num := by
  rw [setNumThreads_eq, length_init, Int.toNat_natCast]

theorem Fresh.setNumThreads {pool : ThreadPool} (h : pool.Fresh) (num : Int) :
    (pool.setNumThreads num).Fresh := by
  rw [setNumThreads_eq]
  have hrequested : Fresh { pool with _numThreads := clamped num } := h
  exact hrequested.init

/-! ### Runs of requests -/

theorem length_foldl_setNumThreads (requests : List Int) (pool : ThreadPool) :
    (requests.foldl setNumThreads pool)._threads.length =
      pool._threads.length + (requests.map clamped).sum := by
  induction requests generalizing pool with
  | nil => simp
  | cons num requests ih =>
      rw [List.foldl_cons, ih, length_setNumThreads, List.map_cons, List.sum_cons, Nat.add_assoc]

theorem Fresh.foldl_setNumThreads {pool : ThreadPool} (h : pool.Fresh) (requests : List Int) :
    (requests.foldl ThreadPool.setNumThreads pool).Fresh := by
  induction requests generalizing pool with
  | nil => exact h
  | cons num requests ih => exact ih (h.setNumThreads num)

theorem mapM_start {threads : List Thread} (h : ∀ t ∈ threads, t._started = false) :
    threads.mapM Thread.start = some (threads.map fun t => { t with _started := true }) := by
  induction threads with
  | nil => rfl
  | cons t threads ih =>
      have hstart : t.start = some { t with _started := true } := by
        rw [Thread.start, if_neg (by simp [h t List.mem_cons_self])]
      rw [List.mapM_cons, hstart, ih fun t' ht' => h t' (List.mem_cons_of_mem t ht')]
      rfl

theorem Fresh.start_spec {pool : ThreadPool} (h : pool.Fresh) :
    ∃ running, pool.start = some running ∧
      running._threads.countP (·._started) = pool._threads.length := by
  refine ⟨_, by rw [ThreadPool.start, mapM_start h]; rfl, ?_⟩
  simp [List.countP_map, Function.comp_def]

/-! ### The pools of either constructor -/

/-- The pool of `ThreadPool()`, or of `ThreadPool(numThreads)` where a number is given, after the
requests. -/
def configured (numThreads : Option Int) (requests : List Int) : ThreadPool :=
  requests.foldl setNumThreads (numThreads.elim new ofNumThreads)

/-- The number of threads is what `getNumThreads` says, it lies in the range, it is the last request
clamped, and it is how many threads `start` starts. -/
structure Counted (numThreads : Option Int) (requests : List Int) (pool : ThreadPool) : Prop where
  threads : pool._threads.length = pool.getNumThreads
  range : 0 ≤ pool.getNumThreads ∧ pool.getNumThreads ≤ kMaxNumThreads
  last : ∀ num ∈ (numThreads.toList ++ requests).getLast?, pool.getNumThreads = clamped num
  started : ∃ running, pool.start = some running ∧
    running._threads.countP (·._started) = pool.getNumThreads

theorem fresh_configured (numThreads : Option Int) (requests : List Int) :
    (configured numThreads requests).Fresh := by
  have hnew : (⟨0, []⟩ : ThreadPool).Fresh := nofun
  cases numThreads with
  | none => exact hnew.foldl_setNumThreads requests
  | some n => exact (hnew.setNumThreads n).init.foldl_setNumThreads requests

/-- `init` runs in `setNumThreads` and once more in the constructor. -/
theorem length_ofNumThreads (n : Int) : (ofNumThreads n)._threads.length = 2 * clamped n := by
  have hrequested : ((⟨0, []⟩ : ThreadPool).setNumThreads n)._threads.length = clamped n := by
    rw [length_setNumThreads, List.length_nil, Nat.zero_add]
  calc
    (ofNumThreads n)._threads.length
        = ((⟨0, []⟩ : ThreadPool).setNumThreads n)._threads.length +
            ((⟨0, []⟩ : ThreadPool).setNumThreads n)._numThreads.toNat := length_init _
    _ = clamped n + clamped n := by rw [hrequested, setNumThreads_numThreads, Int.toNat_natCast]
    _ = 2 * clamped n := (Nat.two_mul _).symm

theorem length_configured (numThreads : Option Int) (requests : List Int) :
    (configured numThreads requests)._threads.length =
      2 * (numThreads.toList.map clamped).sum + (requests.map clamped).sum := by
  rw [configured, length_foldl_setNumThreads]
  cases numThreads with
  | none => rfl
  | some n => simp [length_ofNumThreads]

theorem getNumThreads_configured (numThreads : Option Int) (requests : List Int) :
    (configured numThreads requests).getNumThreads =
      ((numThreads.toList ++ requests).getLast?.elim 0 clamped : Nat) := by
  induction requests using List.reverseRecOn with
  | nil =>
      cases numThreads with
      | none => rfl
      | some n => simp [configured, getNumThreads, ofNumThreads, init_numThreads]
  | append_singleton requests num _ =>
      rw [configured, List.foldl_append, List.foldl_cons, List.foldl_nil, getNumThreads,
        setNumThreads_numThreads, ← List.append_assoc, List.getLast?_concat]
      rfl

theorem length_configured_eq_iff (numThreads : Option Int) (requests : List Int) :
    ((configured numThreads requests)._threads.length : Int) =
        (configured numThreads requests).getNumThreads ↔
      (∀ n ∈ numThreads, n ≤ 0) ∧ ∀ num ∈ requests.dropLast, num ≤ 0 := by
  rw [length_configured, getNumThreads_configured, Nat.cast_inj]
  cases requests using List.reverseRecOn with
  | nil =>
      cases numThreads with
      | none => simp
      | some n =>
          simp [← clamped_eq_zero_iff]
          omega
  | append_singleton requests num =>
      have hsum : (requests.map clamped).sum = 0 ↔ ∀ num ∈ requests, num ≤ 0 := by
        simp [List.sum_eq_zero_iff_forall_eq_nat, clamped_eq_zero_iff]
      have hfirst : (numThreads.toList.map clamped).sum = 0 ↔ ∀ n ∈ numThreads, n ≤ 0 := by
        cases numThreads <;> simp [clamped_eq_zero_iff]
      rw [← List.append_assoc, List.getLast?_concat, List.dropLast_concat, ← hsum, ← hfirst,
        List.map_append, List.sum_append]
      simp
      omega

/-- **The threads of a pool.** For either constructor and all requests: the count is right exactly if
the constructor and every request but the last asked for no thread. -/
theorem counted_iff (numThreads : Option Int) (requests : List Int) :
    Counted numThreads requests (configured numThreads requests) ↔
      (∀ n ∈ numThreads, n ≤ 0) ∧ ∀ num ∈ requests.dropLast, num ≤ 0 := by
  rw [← length_configured_eq_iff]
  refine ⟨Counted.threads, fun hthreads => ⟨hthreads, ?_, ?_, ?_⟩⟩
  · rw [getNumThreads_configured]
    cases (numThreads.toList ++ requests).getLast? with
    | none => exact ⟨Int.le_refl 0, by decide⟩
    | some num => exact ⟨Int.natCast_nonneg _, clamped_le num⟩
  · intro num hnum
    rw [getNumThreads_configured, Option.mem_def.mp hnum]
    rfl
  · obtain ⟨running, hstart, hcount⟩ := (fresh_configured numThreads requests).start_spec
    exact ⟨running, hstart, by rw [hcount, hthreads]⟩

/-- `ThreadPool(3)` has six threads. -/
theorem not_counted :
    ¬ ∀ numThreads requests, Counted numThreads requests (configured numThreads requests) := by
  intro hcounted
  have hthreads := (hcounted (some 3) []).threads
  exact absurd hthreads (by decide +kernel)

end CppUtils.ThreadPool
