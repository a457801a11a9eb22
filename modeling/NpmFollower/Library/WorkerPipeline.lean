import Mathlib

/-! # Workers between two channels

A manager sends chunks of items into a channel, workers take a chunk each, turn it
into results and send these into a second channel, from which batches are taken at
the end. Both channels are bounded. An item leaves the pipeline only when its chunk
is answered, and a result only at the end.
-/

namespace WorkerPipeline

inductive Worker (Q D : Type) where
  | idle
  | computing (chunk : List Q)
  | sending (results : List D)
  | gone

structure Pipeline (Q D : Type) where
  unsent : List (List Q)
  data : List (List Q)
  workers : List (Worker Q D)
  results : List (List D)

inductive Action (A : Type) where
  | send
  | take (w : ℕ)
  | answer (w : ℕ) (a : A)
  | push (w : ℕ)
  /-- The first channel is closed and empty. -/
  | leave (w : ℕ)

variable {Q D A : Type}

namespace Pipeline

def setWorker (p : Pipeline Q D) (w : ℕ) (worker : Worker Q D) : Pipeline Q D :=
  { p with workers := p.workers.set w worker }

/-- One step, with the answer to a chunk; a chunk without an answer takes its worker along. -/
def step (answer : List Q → A → Option (List D)) (capacity : ℕ) (p : Pipeline Q D) :
    Action A → Option (Pipeline Q D)
  | .send =>
    match p.unsent with
    | chunk :: unsent =>
      if p.data.length < capacity then some { p with unsent, data := p.data ++ [chunk] } else none
    | [] => none
  | .take w =>
    match p.workers[w]?, p.data with
    | some .idle, chunk :: data => some ({ p with data }.setWorker w (.computing chunk))
    | _, _ => none
  | .answer w a =>
    match p.workers[w]? with
    | some (.computing chunk) =>
      match answer chunk a with
      | some results => some (p.setWorker w (.sending results))
      | none => some (p.setWorker w .gone)
    | _ => none
  | .push w =>
    match p.workers[w]? with
    | some (.sending results) =>
      if p.results.length < capacity then
        some ({ p with results := p.results ++ [results] }.setWorker w .idle)
      else none
    | _ => none
  | .leave w =>
    match p.workers[w]? with
    | some .idle => if p.unsent = [] ∧ p.data = [] then some (p.setWorker w .gone) else none
    | _ => none

/-- The next batch at the end of the pipeline. -/
def pop (p : Pipeline Q D) : Option (List D × Pipeline Q D) :=
  match p.results with
  | batch :: results => some (batch, { p with results })
  | [] => none

def Drained (p : Pipeline Q D) : Prop :=
  p.unsent = [] ∧ p.data = [] ∧ p.results = [] ∧ ∀ worker ∈ p.workers,
    worker = .idle ∨ worker = .gone

/-- A pipeline with all chunks before it. -/
def start (chunks : List (List Q)) (workers : ℕ) : Pipeline Q D :=
  ⟨chunks, [], List.replicate workers .idle, []⟩

end Pipeline

/-! ## Chunks -/

/-- `slice::chunks`, of a list no longer than the first number. -/
def chunksUpTo (size : ℕ) : ℕ → List Q → List (List Q)
  | 0, _ => []
  | n + 1, l => if l.isEmpty then [] else l.take size :: chunksUpTo size n (l.drop size)

def chunks (size : ℕ) (l : List Q) : List (List Q) := chunksUpTo size l.length l

theorem flatten_chunksUpTo {size n : ℕ} (hsize : 0 < size) {l : List Q} (hl : l.length ≤ n) :
    (chunksUpTo size n l).flatten = l := by
  induction n generalizing l with
  | zero =>
    rw [List.length_eq_zero_iff.mp (Nat.le_zero.mp hl)]
    rfl
  | succ n ih =>
    rw [chunksUpTo]
    split_ifs with hempty
    · rw [List.isEmpty_iff.mp hempty]
      rfl
    · have hdrop : (l.drop size).length ≤ n := by
        rw [List.length_drop]
        omega
      rw [List.flatten_cons, ih hdrop, List.take_append_drop]

theorem ne_nil_of_mem_chunksUpTo {size n : ℕ} (hsize : 0 < size) {l c : List Q}
    (h : c ∈ chunksUpTo size n l) : c ≠ [] := by
  induction n generalizing l with
  | zero => cases h
  | succ n ih =>
    rw [chunksUpTo] at h
    split_ifs at h with hempty
    · cases h
    · rcases List.mem_cons.mp h with rfl | h
      · rw [Ne, List.take_eq_nil_iff]
        rintro (hzero | hnil)
        · exact hsize.ne' hzero
        · exact hempty (List.isEmpty_iff.mpr hnil)
      · exact ih h

theorem flatten_chunks {size : ℕ} (hsize : 0 < size) (l : List Q) : (chunks size l).flatten = l :=
  flatten_chunksUpTo hsize le_rfl

/-! ## What is on its way -/

def Worker.items : Worker Q D → Multiset Q
  | .computing chunk => ↑chunk
  | _ => 0

def Worker.outputs : Worker Q D → Multiset D
  | .sending results => ↑results
  | _ => 0

namespace Pipeline

/-- The items that are not answered. -/
def items (p : Pipeline Q D) : Multiset Q :=
  ↑p.unsent.flatten + ↑p.data.flatten + (p.workers.map Worker.items).sum

/-- The results that are not taken out. -/
def outputs (p : Pipeline Q D) : Multiset D :=
  (p.workers.map Worker.outputs).sum + ↑p.results.flatten

/-- What the worker holds beside what the others hold, before and after its step. -/
theorem exists_sum_set {α M : Type} [AddCommMonoid M] (f : α → M) {l : List α} {i : ℕ} {old : α}
    (hold : l[i]? = some old) : ∃ others, (l.map f).sum = f old + others ∧
      ∀ new, ((l.set i new).map f).sum = f new + others := by
  obtain ⟨hi, rfl⟩ := List.getElem?_eq_some_iff.mp hold
  refine ⟨((l.eraseIdx i).map f).sum, ?_, fun new => ?_⟩
  · rw [((List.getElem_cons_eraseIdx_perm hi).symm.map _).sum_eq, List.map_cons, List.sum_cons]
  · rw [((List.set_perm_cons_eraseIdx hi new).map _).sum_eq, List.map_cons, List.sum_cons]

theorem coe_flatten_append_singleton {α : Type} (l : List (List α)) (x : List α) :
    (↑(l ++ [x]).flatten : Multiset α) = ↑l.flatten + ↑x := by
  rw [List.flatten_append, List.flatten_singleton, ← Multiset.coe_add]

theorem coe_flatten_cons {α : Type} (x : List α) (l : List (List α)) :
    (↑(x :: l).flatten : Multiset α) = ↑x + ↑l.flatten := by
  rw [List.flatten_cons, ← Multiset.coe_add]

theorem items_start (chunks : List (List Q)) (workers : ℕ) :
    (start (D := D) chunks workers).items = ↑chunks.flatten := by
  simp [start, items, Worker.items]

theorem outputs_start (chunks : List (List Q)) (workers : ℕ) :
    (start (D := D) chunks workers).outputs = 0 := by
  simp [start, outputs, Worker.outputs]

variable {answer : List Q → A → Option (List D)} {capacity : ℕ} {p p' : Pipeline Q D}

section SetWorker

variable {w : ℕ} {old : Worker Q D}

theorem items_setWorker (hold : p.workers[w]? = some old) (new : Worker Q D) :
    (p.setWorker w new).items + old.items = p.items + new.items := by
  obtain ⟨others, hbefore, hafter⟩ := exists_sum_set Worker.items hold
  rw [items, items, setWorker, hbefore, hafter new]
  abel

theorem outputs_setWorker (hold : p.workers[w]? = some old) (new : Worker Q D) :
    (p.setWorker w new).outputs + old.outputs = p.outputs + new.outputs := by
  obtain ⟨others, hbefore, hafter⟩ := exists_sum_set Worker.outputs hold
  rw [outputs, outputs, setWorker, hbefore, hafter new]
  abel

end SetWorker

/-- What a step can be: nothing is answered, or one chunk of the items is. -/
theorem step_cases {a : Action A} (h : p.step answer capacity a = some p') :
    p'.items = p.items ∧ p'.outputs = p.outputs ∨
      ∃ w b, ∃ chunk : List Q, a = .answer w b ∧ p.workers[w]? = some (.computing chunk) ∧
        p.items = ↑chunk + p'.items ∧
        (answer chunk b = none ∧ p'.outputs = p.outputs ∨
          ∃ results, answer chunk b = some results ∧ p'.outputs = ↑results + p.outputs) := by
  cases a with
  | send =>
    rw [step] at h
    split at h
    · next chunk unsent hunsent =>
      rw [Option.ite_none_right_eq_some] at h
      obtain ⟨-, h⟩ := h
      cases h
      refine Or.inl ⟨?_, rfl⟩
      rw [items, items, hunsent, coe_flatten_cons, coe_flatten_append_singleton]
      abel
    · cases h
  | take w =>
    rw [step] at h
    split at h
    · next chunk data hworker hdata =>
      cases h
      have hitems := @items_setWorker _ _ { p with data } _ _ hworker (.computing chunk)
      have houtputs := @outputs_setWorker _ _ { p with data } _ _ hworker (.computing chunk)
      refine Or.inl ⟨?_, ?_⟩
      · have hbefore : p.items = items { p with data } + ↑chunk := by
          rw [items, items, hdata, coe_flatten_cons]
          abel
        rw [hbefore, ← add_zero (items (setWorker _ _ _))]
        exact hitems
      · rw [← add_zero (outputs (setWorker _ _ _)), ← add_zero p.outputs]
        exact houtputs
    · cases h
  | answer w b =>
    rw [step] at h
    split at h
    · next chunk hworker =>
      refine Or.inr ⟨w, b, chunk, rfl, hworker, ?_⟩
      cases hanswer : answer chunk b with
      | none =>
        rw [hanswer] at h
        cases h
        refine ⟨?_, Or.inl ⟨rfl, ?_⟩⟩
        · rw [← add_zero p.items, add_comm (chunk : Multiset Q)]
          exact (items_setWorker hworker .gone).symm
        · rw [← add_zero (outputs (setWorker _ _ _)), ← add_zero p.outputs]
          exact outputs_setWorker hworker .gone
      | some results =>
        rw [hanswer] at h
        cases h
        refine ⟨?_, Or.inr ⟨results, rfl, ?_⟩⟩
        · rw [← add_zero p.items, add_comm (chunk : Multiset Q)]
          exact (items_setWorker hworker (.sending results)).symm
        · rw [← add_zero (outputs (setWorker _ _ _)), add_comm (results : Multiset D)]
          exact outputs_setWorker hworker (.sending results)
    · cases h
  | push w =>
    rw [step] at h
    split at h
    · next results hworker =>
      rw [Option.ite_none_right_eq_some] at h
      obtain ⟨-, h⟩ := h
      cases h
      have hitems := @items_setWorker _ _ { p with results := p.results ++ [results] } _ _
        hworker .idle
      have houtputs := @outputs_setWorker _ _ { p with results := p.results ++ [results] } _ _
        hworker .idle
      refine Or.inl ⟨?_, ?_⟩
      · rw [← add_zero (items (setWorker _ _ _)), ← add_zero p.items]
        exact hitems
      · have hbefore : outputs { p with results := p.results ++ [results] } =
            p.outputs + ↑results := by
          rw [outputs, outputs, coe_flatten_append_singleton]
          abel
        rw [hbefore] at houtputs
        exact add_right_cancel (houtputs.trans (add_zero _))
    · cases h
  | leave w =>
    rw [step] at h
    split at h
    · next hworker =>
      rw [Option.ite_none_right_eq_some] at h
      obtain ⟨-, h⟩ := h
      cases h
      refine Or.inl ⟨?_, ?_⟩
      · rw [← add_zero (items (setWorker _ _ _)), ← add_zero p.items]
        exact items_setWorker hworker .gone
      · rw [← add_zero (outputs (setWorker _ _ _)), ← add_zero p.outputs]
        exact outputs_setWorker hworker .gone
    · cases h

theorem pop_cases {batch : List D} (h : p.pop = some (batch, p')) :
    p'.items = p.items ∧ p.outputs = ↑batch + p'.outputs := by
  rw [pop] at h
  split at h
  · next results hresults =>
    cases h
    refine ⟨rfl, ?_⟩
    rw [outputs, outputs, hresults, coe_flatten_cons]
    abel
  · cases h

/-- Nothing is on its way in a pipeline that is drained. -/
theorem Drained.empty (h : p.Drained) : p.items = 0 ∧ p.outputs = 0 := by
  obtain ⟨hunsent, hdata, hresults, hworkers⟩ := h
  have hitems : (p.workers.map Worker.items).sum = 0 := by
    refine List.sum_eq_zero fun x hx => ?_
    obtain ⟨worker, hworker, rfl⟩ := List.mem_map.mp hx
    rcases hworkers worker hworker with rfl | rfl <;> rfl
  have houtputs : (p.workers.map Worker.outputs).sum = 0 := by
    refine List.sum_eq_zero fun x hx => ?_
    obtain ⟨worker, hworker, rfl⟩ := List.mem_map.mp hx
    rcases hworkers worker hworker with rfl | rfl <;> rfl
  rw [items, outputs, hitems, houtputs, hunsent, hdata, hresults]
  exact ⟨rfl, rfl⟩

end Pipeline

end WorkerPipeline
