import Mathlib

/-! # Writers on shared files

A writer takes a free file, reserves the range after all earlier ones, lists its
items in an index, writes them one after the other, and gives the file back, which
makes its entries of the index valid. Then every valid entry names the bytes that
were written for its key, whatever the writers of other files do meanwhile.
-/

namespace SharedFiles

set_option linter.unusedSectionVars false

/-- Where an item is. -/
structure Place (φ : Type) where
  file : φ
  offset : ℕ
  length : ℕ

inductive Stage (φ α : Type) where
  /-- The writer has no file yet. -/
  | waiting
  | holding (file : φ)
  | reserved (file : φ) (offset : ℕ)
  | listed (file : φ) (offset : ℕ)
  | writing (file : φ) (offset position : ℕ) (rest : List α)
  /-- The writer has given its file back. -/
  | committed
  | ended

structure Writer (κ φ α : Type) where
  items : List (κ × List α)
  stage : Stage φ α

/-- The sizes of the files, reserved ranges included, their bytes, who holds them, the index with a
mark on the valid entries, and the writers. -/
@[ext] structure Shelf (ι κ φ α : Type) where
  size : φ → Option ℕ
  bytes : φ → Option (List α)
  holder : φ → Option ι
  index : κ → Option (Place φ × Bool)
  writer : ι → Option (Writer κ φ α)

section Bytes

variable {α : Type}

/-- The file has these bytes at the offset. -/
def Reads (b : List α) (offset : ℕ) (data : List α) : Prop :=
  ∀ j < data.length, b[offset + j]? = data[j]?

/-- The bytes of a read of the given length. -/
def readExact (b : List α) (offset length : ℕ) : Option (List α) :=
  if ((b.drop offset).take length).length = length then some ((b.drop offset).take length) else none

variable {b data : List α} {offset position : ℕ}

theorem readExact_of_reads (h : Reads b offset data) :
    readExact b offset data.length = some data := by
  have htake : (b.drop offset).take data.length = data := by
    apply List.ext_getElem?
    intro j
    rw [List.getElem?_take, List.getElem?_drop]
    split_ifs with hj
    · exact h j hj
    · rw [List.getElem?_eq_none (not_lt.mp hj)]
  rw [readExact, htake, if_pos rfl]

theorem Reads.append {first second : List α} (h : Reads b offset first)
    (h' : Reads b (offset + first.length) second) : Reads b offset (first ++ second) := by
  intro j hj
  rw [List.length_append] at hj
  by_cases hfirst : j < first.length
  · rw [List.getElem?_append_left hfirst]
    exact h j hfirst
  · rw [List.getElem?_append_right (not_lt.mp hfirst), ← h' (j - first.length) (by omega)]
    congr 1
    omega

theorem Reads.left {first second : List α} (h : Reads b offset (first ++ second)) :
    Reads b offset first := by
  intro j hj
  rw [h j (by rw [List.length_append]; omega), List.getElem?_append_left hj]

theorem Reads.right {first second : List α} (h : Reads b offset (first ++ second)) :
    Reads b (offset + first.length) second := by
  intro j hj
  rw [Nat.add_assoc, h (first.length + j) (by rw [List.length_append]; omega),
    List.getElem?_append_right (by omega), Nat.add_sub_cancel_left]

variable [Inhabited α]

/-- A write, which fills a gap after the end of the file. -/
def overwrite (b : List α) (position : ℕ) (data : List α) : List α :=
  (b ++ List.replicate (position - b.length) default).take position ++ data ++
    b.drop (position + data.length)

theorem length_head :
    ((b ++ List.replicate (position - b.length) default).take position).length = position := by
  rw [List.length_take, List.length_append, List.length_replicate]
  omega

theorem reads_overwrite (b : List α) (position : ℕ) (data : List α) :
    Reads (overwrite b position data) position data := by
  intro j hj
  rw [overwrite, List.append_assoc, List.getElem?_append_right (by rw [length_head]; omega),
    length_head, Nat.add_sub_cancel_left, List.getElem?_append_left hj]

/-- What lies before the position stays. -/
theorem Reads.overwrite (h : Reads b offset data) (hbefore : offset + data.length ≤ position)
    (written : List α) : Reads (overwrite b position written) offset data := by
  intro j hj
  have hread := h j hj
  have hlt : offset + j < b.length := by
    by_contra hge
    rw [List.getElem?_eq_none (not_lt.mp hge), List.getElem?_eq_getElem hj] at hread
    cases hread
  rw [SharedFiles.overwrite, List.append_assoc,
    List.getElem?_append_left (by rw [length_head]; omega), List.getElem?_take,
    if_pos (by omega), List.getElem?_append_left hlt, hread]

end Bytes

section Items

variable {κ φ α : Type}

def keys (items : List (κ × List α)) : List κ := items.map Prod.fst

/-- All bytes of the items, in order. -/
def contents (items : List (κ × List α)) : List α := (items.map Prod.snd).flatten

/-- The places of the items, one after the other from an offset on. -/
def placesFrom (file : φ) : ℕ → List (κ × List α) → List (κ × Place φ)
  | _, [] => []
  | offset, e :: items =>
    (e.1, ⟨file, offset, e.2.length⟩) :: placesFrom file (offset + e.2.length) items

theorem keys_placesFrom (file : φ) (offset : ℕ) (items : List (κ × List α)) :
    (placesFrom file offset items).map Prod.fst = keys items := by
  induction items generalizing offset with
  | nil => rfl
  | cons e items ih => rw [placesFrom, List.map_cons, ih, keys, keys, List.map_cons]

/-- Where all items have been written, every place has the bytes of its item. -/
theorem placesFrom_reads {file : φ} {offset : ℕ} {items : List (κ × List α)} {k : κ} {p : Place φ}
    (h : (k, p) ∈ placesFrom file offset items) : ∃ data, (k, data) ∈ items ∧ p.file = file ∧
      p.length = data.length ∧ p.offset + p.length ≤ offset + (contents items).length ∧
        ∀ b, Reads b offset (contents items) → Reads b p.offset data := by
  induction items generalizing offset with
  | nil => cases h
  | cons e items ih =>
    have hcontents : contents (e :: items) = e.2 ++ contents items := by simp [contents]
    rw [placesFrom] at h
    rcases List.mem_cons.mp h with heq | hmem
    · cases heq
      refine ⟨e.2, List.mem_cons_self, rfl, rfl, ?_, fun b hb => ?_⟩
      · rw [hcontents, List.length_append]
        dsimp only
        omega
      · rw [hcontents] at hb
        exact hb.left
    · obtain ⟨data, hdata, hfile, hlength, hend, hreads⟩ := ih hmem
      refine ⟨data, List.mem_cons_of_mem _ hdata, hfile, hlength, ?_, fun b hb => ?_⟩
      · rw [hcontents, List.length_append]
        omega
      · rw [hcontents] at hb
        exact hreads b hb.right

end Items

variable {ι κ φ α : Type}

def Stage.file : Stage φ α → Option φ
  | holding f => some f
  | reserved f _ => some f
  | listed f _ => some f
  | writing f _ _ _ => some f
  | _ => none

/-- The items are not in the index yet. -/
def Stage.unlisted : Stage φ α → Bool
  | waiting => true
  | holding _ => true
  | reserved _ _ => true
  | _ => false

namespace Shelf

variable (s : Shelf ι κ φ α) (limit : ℕ)

/-- The valid entries of the file end there or before. -/
def Below (f : φ) (n : ℕ) : Prop :=
  ∀ k p, s.index k = some (p, true) → p.file = f → p.offset + p.length ≤ n

/-- The range of the items starts after all valid entries, and the size of the file is its end. -/
structure Ranged (items : List (κ × List α)) (f : φ) (n : ℕ) : Prop where
  start : n ≤ limit
  below : s.Below f n
  size : ∃ m, s.size f = some m ∧
    (n + (contents items).length ≤ limit → m = n + (contents items).length)

/-- The items are in the index at their places. -/
def Listed (items : List (κ × List α)) (f : φ) (n : ℕ) : Prop :=
  n + (contents items).length ≤ limit →
    ∀ e ∈ placesFrom f n items, s.index e.1 = some (e.2, false)

/-- What holds of a writer. -/
def WriterOk (items : List (κ × List α)) : Stage φ α → Prop
  | .holding f => ∃ n, s.size f = some n ∧ n ≤ limit ∧ s.Below f n
  | .reserved f n => s.Ranged limit items f n
  | .listed f n => s.Ranged limit items f n ∧ s.Listed limit items f n
  | .writing f n position rest => s.Ranged limit items f n ∧ s.Listed limit items f n ∧
    ∃ done b, contents items = done ++ rest ∧ position = n + done.length ∧ position ≤ limit ∧
      s.bytes f = some b ∧ Reads b n done
  | .committed => ∀ k ∈ keys items, ∃ p, s.index k = some (p, true)
  | _ => True

structure Inv : Prop where
  writers : ∀ i w, s.writer i = some w → s.WriterOk limit w.items w.stage
  held : ∀ i w f, s.writer i = some w → w.stage.file = some f → s.holder f = some i
  free : ∀ f n, s.holder f = none → s.size f = some n → n ≤ limit ∧ s.Below f n
  sized : ∀ k p, s.index k = some (p, true) → s.size p.file ≠ none
  unlisted : ∀ i w, s.writer i = some w → w.stage.unlisted → ∀ k ∈ keys w.items, s.index k = none
  owned : ∀ k e, s.index k = some e → ∃ i w, s.writer i = some w ∧ k ∈ keys w.items
  distinct : ∀ i j w w', s.writer i = some w → s.writer j = some w' → i ≠ j →
    ∀ k ∈ keys w.items, k ∉ keys w'.items
  valid : ∀ k p, s.index k = some (p, true) → ∃ i w data b, s.writer i = some w ∧
    (k, data) ∈ w.items ∧ p.length = data.length ∧ s.bytes p.file = some b ∧ Reads b p.offset data

variable {s limit} {s' : Shelf ι κ φ α} {items : List (κ × List α)} {stage stage' : Stage φ α}

/-- A writer is not affected by what others do to their files and keys. -/
theorem WriterOk.congr (h : s.WriterOk limit items stage)
    (hsize : ∀ f, stage.file = some f → s'.size f = s.size f)
    (hbytes : ∀ f, stage.file = some f → s'.bytes f = s.bytes f)
    (hindex : ∀ k ∈ keys items, s'.index k = s.index k)
    (hbelow : ∀ f n, stage.file = some f → s.Below f n → s'.Below f n) :
    s'.WriterOk limit items stage := by
  have hranged {f : φ} {n : ℕ} (hf : stage.file = some f) (h : s.Ranged limit items f n) :
      s'.Ranged limit items f n := ⟨h.start, hbelow f n hf h.below, by rw [hsize f hf]; exact h.size⟩
  have hlisted {f : φ} {n : ℕ} (h : s.Listed limit items f n) : s'.Listed limit items f n := by
    intro hend e he
    rw [hindex e.1]
    · exact h hend e he
    · rw [← keys_placesFrom f n items]
      exact List.mem_map_of_mem he
  cases stage with
  | holding f =>
    obtain ⟨n, hn, hle, hb⟩ := h
    exact ⟨n, (hsize f rfl).trans hn, hle, hbelow f n rfl hb⟩
  | reserved f n => exact hranged rfl h
  | listed f n => exact ⟨hranged rfl h.1, hlisted h.2⟩
  | writing f n position rest =>
    obtain ⟨hr, hl, done, b, hcontents, hposition, hlimit, hb, hreads⟩ := h
    exact ⟨hranged rfl hr, hlisted hl, done, b, hcontents, hposition, hlimit,
      (hbytes f rfl).trans hb, hreads⟩
  | committed =>
    intro k hk
    rw [hindex k hk]
    exact h k hk
  | waiting => trivial
  | ended => trivial

section Steps

variable [DecidableEq ι]

/-- A step of one writer on one file. -/
structure Touches (s s' : Shelf ι κ φ α) (i : ι) (items : List (κ × List α)) (stage' : Stage φ α)
    (f : φ) : Prop where
  writer : ∀ j, s'.writer j = if i = j then some ⟨items, stage'⟩ else s.writer j
  alone : ∀ j w, s.writer j = some w → i ≠ j → w.stage.file ≠ some f
  size : ∀ f' ≠ f, s'.size f' = s.size f'
  sized : s.size f ≠ none → s'.size f ≠ none
  bytes : ∀ f' ≠ f, s'.bytes f' = s.bytes f'
  holder : ∀ f' ≠ f, s'.holder f' = s.holder f'
  holds : ∀ f', stage'.file = some f' → f' = f ∧ s'.holder f = some i
  index : ∀ k ∉ keys items, s'.index k = s.index k
  /-- A valid entry was valid before, or has just become so. -/
  valid : ∀ k p, s'.index k = some (p, true) → s.index k = some (p, true) ∨
    p.file = f ∧ s'.size f ≠ none ∧ ∃ data b, (k, data) ∈ items ∧ p.length = data.length ∧
      s'.bytes f = some b ∧ Reads b p.offset data
  /-- The bytes of the valid entries stay. -/
  kept : ∀ k p, s.index k = some (p, true) → p.file = f → ∀ b data, p.length = data.length →
    s.bytes f = some b → Reads b p.offset data → ∃ b', s'.bytes f = some b' ∧ Reads b' p.offset data

theorem Inv.touch {i : ι} {f : φ} (hs : s.Inv limit) (hwriter : s.writer i = some ⟨items, stage⟩)
    (h : Touches s s' i items stage' f)
    (hunlisted : stage'.unlisted → stage.unlisted ∧ s'.index = s.index)
    (hok : s'.WriterOk limit items stage')
    (hfree : s'.holder f = none → ∀ n, s'.size f = some n → n ≤ limit ∧ s'.Below f n) :
    s'.Inv limit := by
  have hbelow : ∀ f' n, f' ≠ f → s.Below f' n → s'.Below f' n := by
    intro f' n hne hb k p hp hfile
    rcases h.valid k p hp with hold | ⟨hfile', -⟩
    · exact hb k p hold hfile
    · exact absurd (hfile.symm.trans hfile') hne
  have hwriters : ∀ j w, s'.writer j = some w →
      (i = j ∧ w = ⟨items, stage'⟩) ∨ (i ≠ j ∧ s.writer j = some w) := by
    intro j w hw
    rw [h.writer] at hw
    split_ifs at hw with hj
    · exact .inl ⟨hj, (Option.some.inj hw).symm⟩
    · exact .inr ⟨hj, hw⟩
  have hexists : ∀ j w, s.writer j = some w → ∃ w', s'.writer j = some w' ∧ w'.items = w.items := by
    intro j w hw
    rw [h.writer]
    split_ifs with hj
    · subst hj
      cases hwriter.symm.trans hw
      exact ⟨_, rfl, rfl⟩
    · exact ⟨w, hw, rfl⟩
  constructor
  case writers =>
    intro j w hw
    rcases hwriters j w hw with ⟨-, rfl⟩ | ⟨hj, hold⟩
    · exact hok
    · have hother : ∀ f', w.stage.file = some f' → f' ≠ f := by
        rintro f' hf' rfl
        exact h.alone j w hold hj hf'
      refine (hs.writers j w hold).congr (fun f' hf' => h.size f' (hother f' hf'))
        (fun f' hf' => h.bytes f' (hother f' hf')) (fun k hk => h.index k ?_)
        (fun f' n hf' => hbelow f' n (hother f' hf'))
      exact hs.distinct j i w _ hold hwriter (Ne.symm hj) k hk
  case held =>
    intro j w f' hw hfile
    rcases hwriters j w hw with ⟨rfl, rfl⟩ | ⟨hj, hold⟩
    · obtain ⟨rfl, hholder⟩ := h.holds f' hfile
      exact hholder
    · have hne : f' ≠ f := by
        rintro rfl
        exact h.alone j w hold hj hfile
      rw [h.holder f' hne]
      exact hs.held j w f' hold hfile
  case free =>
    intro f' n hholder hsize
    by_cases hf : f' = f
    · subst hf
      exact hfree hholder n hsize
    · rw [h.holder f' hf] at hholder
      rw [h.size f' hf] at hsize
      obtain ⟨hle, hb⟩ := hs.free f' n hholder hsize
      exact ⟨hle, hbelow f' n hf hb⟩
  case sized =>
    intro k p hp
    rcases h.valid k p hp with hold | ⟨rfl, hsize, -⟩
    · by_cases hf : p.file = f
      · rw [hf]
        exact h.sized (hf ▸ hs.sized k p hold)
      · rw [h.size _ hf]
        exact hs.sized k p hold
    · exact hsize
  case unlisted =>
    intro j w hw hstage k hk
    rcases hwriters j w hw with ⟨rfl, rfl⟩ | ⟨hj, hold⟩
    · obtain ⟨hstage', hindex⟩ := hunlisted hstage
      rw [hindex]
      exact hs.unlisted i _ hwriter hstage' k hk
    · rw [h.index k (hs.distinct j i w _ hold hwriter (Ne.symm hj) k hk)]
      exact hs.unlisted j w hold hstage k hk
  case owned =>
    intro k e he
    by_cases hk : k ∈ keys items
    · exact ⟨i, _, by rw [h.writer, if_pos rfl], hk⟩
    · rw [h.index k hk] at he
      obtain ⟨j, w, hw, hmem⟩ := hs.owned k e he
      obtain ⟨w', hw', hitems⟩ := hexists j w hw
      exact ⟨j, w', hw', by rw [hitems]; exact hmem⟩
  case distinct =>
    intro j j' w w' hw hw' hne k hk
    have hitems : ∀ j w, s'.writer j = some w → ∃ w', s.writer j = some w' ∧ w.items = w'.items := by
      intro j w hw
      rcases hwriters j w hw with ⟨rfl, rfl⟩ | ⟨-, hold⟩
      · exact ⟨_, hwriter, rfl⟩
      · exact ⟨w, hold, rfl⟩
    obtain ⟨w₀, hw₀, heq⟩ := hitems j w hw
    obtain ⟨w₀', hw₀', heq'⟩ := hitems j' w' hw'
    rw [heq']
    exact hs.distinct j j' w₀ w₀' hw₀ hw₀' hne k (heq ▸ hk)
  case valid =>
    intro k p hp
    rcases h.valid k p hp with hold | ⟨rfl, -, data, b, hdata, hlength, hb, hreads⟩
    · obtain ⟨j, w, data, b, hw, hdata, hlength, hb, hreads⟩ := hs.valid k p hold
      obtain ⟨w', hw', hitems⟩ := hexists j w hw
      by_cases hf : p.file = f
      · obtain ⟨b', hb', hreads'⟩ := h.kept k p hold hf b data hlength (hf ▸ hb) hreads
        exact ⟨j, w', data, b', hw', by rw [hitems]; exact hdata, hlength, hf ▸ hb', hreads'⟩
      · exact ⟨j, w', data, b, hw', by rw [hitems]; exact hdata, hlength, by rw [h.bytes _ hf, hb],
          hreads⟩
    · exact ⟨i, _, data, b, by rw [h.writer, if_pos rfl], hdata, hlength, hb, hreads⟩

theorem Inv.alone (hs : s.Inv limit) {i : ι} {f : φ} (hwriter : s.writer i = some ⟨items, stage⟩)
    (hfile : stage.file = some f) :
    ∀ j w, s.writer j = some w → i ≠ j → w.stage.file ≠ some f := by
  intro j w hw hne hf
  have hi := hs.held i _ f hwriter hfile
  have hj := hs.held j w f hw hf
  exact hne (Option.some.inj (hi.symm.trans hj))

/-- What a step on a file that does not change the index touches. -/
theorem touches_of_index {i : ι} {f : φ}
    (hwriter : ∀ j, s'.writer j = if i = j then some ⟨items, stage'⟩ else s.writer j)
    (halone : ∀ j w, s.writer j = some w → i ≠ j → w.stage.file ≠ some f)
    (hsize : ∀ f' ≠ f, s'.size f' = s.size f') (hsized : s.size f ≠ none → s'.size f ≠ none)
    (hbytes : ∀ f' ≠ f, s'.bytes f' = s.bytes f') (hholder : ∀ f' ≠ f, s'.holder f' = s.holder f')
    (hholds : stage'.file = some f ∧ s'.holder f = some i) (hindex : s'.index = s.index)
    (hkept : ∀ k p, s.index k = some (p, true) → p.file = f → ∀ b data, p.length = data.length →
      s.bytes f = some b → Reads b p.offset data →
        ∃ b', s'.bytes f = some b' ∧ Reads b' p.offset data) :
    Touches s s' i items stage' f where
  writer := hwriter
  alone := halone
  size := hsize
  sized := hsized
  bytes := hbytes
  holder := hholder
  holds := by
    intro f' hf'
    cases hf'.symm.trans hholds.1
    exact ⟨rfl, hholds.2⟩
  index := fun k _ => by rw [hindex]
  valid := fun k p hp => .inl (hindex ▸ hp)
  kept := hkept

variable [DecidableEq κ] [DecidableEq φ] [Inhabited α]

section Operations

variable (s limit)

def setWriter (i : ι) (w : Writer κ φ α) : Shelf ι κ φ α :=
  { s with writer := fun j => if i = j then some w else s.writer j }

def setSize (f : φ) (n : ℕ) : Shelf ι κ φ α :=
  { s with size := fun f' => if f = f' then some n else s.size f' }

def setBytes (f : φ) (b : List α) : Shelf ι κ φ α :=
  { s with bytes := fun f' => if f = f' then some b else s.bytes f' }

def setHolder (f : φ) (h : Option ι) : Shelf ι κ φ α :=
  { s with holder := fun f' => if f = f' then h else s.holder f' }

/-- The entries of the keys become valid. -/
def validate (ks : List κ) : Shelf ι κ φ α :=
  { s with index := fun k => if k ∈ ks then (s.index k).map fun e => (e.1, true) else s.index k }

/-- A step of a writer. The size of a file and the places of items are what they should be where the
range ends within the limit. -/
inductive Step : Shelf ι κ φ α → Prop where
  | begin (i : ι) (items : List (κ × List α)) (hnew : s.writer i = none)
      (hfresh : ∀ j w, s.writer j = some w → ∀ k ∈ keys items, k ∉ keys w.items) :
      Step (s.setWriter i ⟨items, .waiting⟩)
  | take {i : ι} {items : List (κ × List α)} (f : φ) (hwriter : s.writer i = some ⟨items, .waiting⟩)
      (hfree : s.holder f = none) :
      Step (((s.setSize f ((s.size f).getD 0)).setHolder f (some i)).setWriter i
        ⟨items, .holding f⟩)
  | reserve {i : ι} {items : List (κ × List α)} {f : φ} {n : ℕ} (m : ℕ)
      (hwriter : s.writer i = some ⟨items, .holding f⟩) (hsize : s.size f = some n)
      (hend : n + (contents items).length ≤ limit → m = n + (contents items).length) :
      Step ((s.setSize f m).setWriter i ⟨items, .reserved f n⟩)
  | list {i : ι} {items : List (κ × List α)} {f : φ} {n : ℕ} (places : List (κ × Place φ))
      (index : κ → Option (Place φ × Bool)) (hwriter : s.writer i = some ⟨items, .reserved f n⟩)
      (hkeys : places.map Prod.fst = keys items)
      (hplaces : n + (contents items).length ≤ limit → places = placesFrom f n items)
      (hlisted : ∀ e ∈ places, index e.1 = some (e.2, false))
      (hothers : ∀ k ∉ keys items, index k = s.index k) :
      Step (({ s with index } : Shelf ι κ φ α).setWriter i ⟨items, .listed f n⟩)
  | openFile {i : ι} {items : List (κ × List α)} {f : φ} {n : ℕ}
      (hwriter : s.writer i = some ⟨items, .listed f n⟩) (hlimit : n ≤ limit) :
      Step ((s.setBytes f ((s.bytes f).getD [])).setWriter i
        ⟨items, .writing f n n (contents items)⟩)
  | write {i : ι} {items : List (κ × List α)} {f : φ} {n position : ℕ} {b : List α}
      (data rest : List α) (hwriter : s.writer i = some ⟨items, .writing f n position (data ++ rest)⟩)
      (hbytes : s.bytes f = some b) (hlimit : position + data.length ≤ limit) :
      Step ((s.setBytes f (overwrite b position data)).setWriter i
        ⟨items, .writing f n (position + data.length) rest⟩)
  | giveBack {i : ι} {items : List (κ × List α)} {f : φ} {n position : ℕ} (valid : List κ)
      {stage : Stage φ α} (hwriter : s.writer i = some ⟨items, .writing f n position []⟩)
      (hvalid : ∀ k ∈ valid, k ∈ keys items)
      (hstage : stage = .ended ∨ stage = .committed ∧ valid = keys items) :
      Step (((s.validate valid).setHolder f none).setWriter i ⟨items, stage⟩)
  | gaveUp (writer : ι → Option (Writer κ φ α)) (hwriter : ∀ i, writer i = s.writer i ∨
      ∃ w, s.writer i = some w ∧ writer i = some { w with stage := .ended }) :
      Step { s with writer }

end Operations

theorem Inv.take (hs : s.Inv limit) {i : ι} {f : φ}
    (hwriter : s.writer i = some ⟨items, .waiting⟩) (hfree : s.holder f = none) :
    Inv (((s.setSize f ((s.size f).getD 0)).setHolder f (some i)).setWriter i
      ⟨items, .holding f⟩) limit := by
  have hbelow : ((s.size f).getD 0) ≤ limit ∧ s.Below f ((s.size f).getD 0) := by
    cases hsize : s.size f with
    | none => exact ⟨Nat.zero_le _, fun k p hp hf => absurd (hf ▸ hsize) (hs.sized k p hp)⟩
    | some n => exact hs.free f n hfree hsize
  refine hs.touch (f := f) hwriter (touches_of_index (fun _ => rfl) ?_ ?_ ?_ (fun _ _ => rfl) ?_
    ⟨rfl, if_pos rfl⟩ rfl fun k p _ _ b data _ hb hreads => ⟨b, hb, hreads⟩) (fun _ => ⟨rfl, rfl⟩) ?_ ?_
  · intro j w hw hne hfile
    cases hfree.symm.trans (hs.held j w f hw hfile)
  · exact fun f' hne => if_neg (Ne.symm hne)
  · exact fun _ => by simp [setWriter, setHolder, setSize]
  · exact fun f' hne => if_neg (Ne.symm hne)
  · exact ⟨_, if_pos rfl, hbelow.1, hbelow.2⟩
  · intro hholder
    simp [setWriter, setHolder] at hholder

theorem Inv.reserve (hs : s.Inv limit) {i : ι} {f : φ} {n m : ℕ}
    (hwriter : s.writer i = some ⟨items, .holding f⟩) (hsize : s.size f = some n)
    (hend : n + (contents items).length ≤ limit → m = n + (contents items).length) :
    Inv ((s.setSize f m).setWriter i ⟨items, .reserved f n⟩) limit := by
  have hholder : s.holder f = some i := hs.held i _ f hwriter rfl
  obtain ⟨n', hn', hle, hbelow⟩ := hs.writers i _ hwriter
  cases hsize.symm.trans hn'
  refine hs.touch (f := f) hwriter (touches_of_index (fun _ => rfl) (hs.alone hwriter rfl) ?_ ?_
    (fun _ _ => rfl) (fun _ _ => rfl) ⟨rfl, hholder⟩ rfl
      fun k p _ _ b data _ hb hreads => ⟨b, hb, hreads⟩) (fun _ => ⟨rfl, rfl⟩) ?_ ?_
  · exact fun f' hne => if_neg (Ne.symm hne)
  · exact fun _ => by simp [setWriter, setSize]
  · exact ⟨hle, hbelow, m, if_pos rfl, hend⟩
  · intro hnone
    cases hholder.symm.trans hnone

theorem Inv.list (hs : s.Inv limit) {i : ι} {f : φ} {n : ℕ} {places : List (κ × Place φ)}
    {index : κ → Option (Place φ × Bool)} (hwriter : s.writer i = some ⟨items, .reserved f n⟩)
    (hkeys : places.map Prod.fst = keys items)
    (hplaces : n + (contents items).length ≤ limit → places = placesFrom f n items)
    (hlisted : ∀ e ∈ places, index e.1 = some (e.2, false))
    (hothers : ∀ k ∉ keys items, index k = s.index k) :
    Inv (({ s with index } : Shelf ι κ φ α).setWriter i ⟨items, .listed f n⟩) limit := by
  have hholder : s.holder f = some i := hs.held i _ f hwriter rfl
  have hvalid : ∀ k p, index k = some (p, true) → s.index k = some (p, true) := by
    intro k p hp
    by_cases hk : k ∈ keys items
    · rw [← hkeys] at hk
      obtain ⟨e, he, rfl⟩ := List.mem_map.mp hk
      cases (hlisted e he).symm.trans hp
    · exact (hothers k hk).symm.trans hp
  obtain ⟨hstart, hbelow, hsize⟩ := hs.writers i _ hwriter
  refine hs.touch (f := f) hwriter ⟨fun _ => rfl, hs.alone hwriter rfl, fun _ _ => rfl, id,
    fun _ _ => rfl, fun _ _ => rfl, ?_, hothers, fun k p hp => .inl (hvalid k p hp),
    fun k p _ _ b data _ hb hreads => ⟨b, hb, hreads⟩⟩ (by rintro ⟨⟩) ?_ ?_
  · rintro _ ⟨⟩
    exact ⟨rfl, hholder⟩
  · refine ⟨⟨hstart, fun k p hp => hbelow k p (hvalid k p hp), hsize⟩, fun hend e he => ?_⟩
    exact hlisted e (by rw [hplaces hend]; exact he)
  · intro hnone
    cases hholder.symm.trans hnone

theorem Inv.openFile (hs : s.Inv limit) {i : ι} {f : φ} {n : ℕ}
    (hwriter : s.writer i = some ⟨items, .listed f n⟩) (hlimit : n ≤ limit) :
    Inv ((s.setBytes f ((s.bytes f).getD [])).setWriter i
      ⟨items, .writing f n n (contents items)⟩) limit := by
  have hholder : s.holder f = some i := hs.held i _ f hwriter rfl
  obtain ⟨hranged, hlisted⟩ := hs.writers i _ hwriter
  refine hs.touch (f := f) hwriter (touches_of_index (fun _ => rfl) (hs.alone hwriter rfl)
    (fun _ _ => rfl) id ?_ (fun _ _ => rfl) ⟨rfl, hholder⟩ rfl ?_) (by rintro ⟨⟩) ?_ ?_
  · exact fun f' hne => if_neg (Ne.symm hne)
  · intro k p _ _ b data _ hb hreads
    refine ⟨b, ?_, hreads⟩
    simp [setWriter, setBytes, hb]
  · refine ⟨⟨hranged.start, hranged.below, hranged.size⟩, hlisted, [], (s.bytes f).getD [], rfl, rfl,
      hlimit, if_pos rfl, fun j hj => absurd hj (Nat.not_lt_zero j)⟩
  · intro hnone
    cases hholder.symm.trans hnone

theorem Inv.write (hs : s.Inv limit) {i : ι} {f : φ} {n position : ℕ} {b data rest : List α}
    (hwriter : s.writer i = some ⟨items, .writing f n position (data ++ rest)⟩)
    (hbytes : s.bytes f = some b) (hlimit : position + data.length ≤ limit) :
    Inv ((s.setBytes f (overwrite b position data)).setWriter i
      ⟨items, .writing f n (position + data.length) rest⟩) limit := by
  have hholder : s.holder f = some i := hs.held i _ f hwriter rfl
  obtain ⟨hranged, hlisted, done, b', hcontents, rfl, -, hb', hreads⟩ := hs.writers i _ hwriter
  cases hbytes.symm.trans hb'
  refine hs.touch (f := f) hwriter (touches_of_index (fun _ => rfl) (hs.alone hwriter rfl)
    (fun _ _ => rfl) id ?_ (fun _ _ => rfl) ⟨rfl, hholder⟩ rfl ?_) (by rintro ⟨⟩) ?_ ?_
  · exact fun f' hne => if_neg (Ne.symm hne)
  · -- the valid entries of the file end before the range
    intro k p hp hf b₀ data₀ hlength hb₀ hreads₀
    cases hbytes.symm.trans hb₀
    have hend := hranged.below k p hp hf
    exact ⟨_, if_pos rfl, hreads₀.overwrite (by omega) data⟩
  · refine ⟨⟨hranged.start, hranged.below, hranged.size⟩, hlisted, done ++ data, _, ?_, ?_, hlimit,
      if_pos rfl, (hreads.overwrite le_rfl data).append (reads_overwrite b _ data)⟩
    · rw [List.append_assoc, ← hcontents]
    · rw [List.length_append, Nat.add_assoc]
  · intro hnone
    cases hholder.symm.trans hnone

theorem Inv.giveBack (hs : s.Inv limit) {i : ι} {f : φ} {n position : ℕ} {valid : List κ}
    (hwriter : s.writer i = some ⟨items, .writing f n position []⟩)
    (hvalid : ∀ k ∈ valid, k ∈ keys items)
    (hstage : stage = .ended ∨ stage = .committed ∧ valid = keys items) :
    Inv (((s.validate valid).setHolder f none).setWriter i ⟨items, stage⟩) limit := by
  obtain ⟨hranged, hlisted, done, b, hcontents, rfl, hlimit, hb, hreads⟩ := hs.writers i _ hwriter
  rw [List.append_nil] at hcontents
  rw [← hcontents] at hlimit hreads
  obtain ⟨m, hsize, hm⟩ := hranged.size
  have hindex : ∀ k, ((s.validate valid).setHolder f none).index k =
      if k ∈ valid then (s.index k).map fun e => (e.1, true) else s.index k := fun _ => rfl
  have hplaced : ∀ k ∈ keys items, ∃ p, (k, p) ∈ placesFrom f n items ∧
      s.index k = some (p, false) := by
    intro k hk
    rw [← keys_placesFrom f n items] at hk
    obtain ⟨e, he, rfl⟩ := List.mem_map.mp hk
    exact ⟨e.2, he, hlisted hlimit e he⟩
  have hbecome : ∀ k p, ((s.validate valid).setHolder f none).index k = some (p, true) →
      s.index k = some (p, true) ∨ (k, p) ∈ placesFrom f n items := by
    intro k p hp
    rw [hindex] at hp
    split_ifs at hp with hk
    · obtain ⟨p', hp', heq⟩ := hplaced k (hvalid k hk)
      rw [heq] at hp
      cases hp
      exact .inr hp'
    · exact .inl hp
  refine hs.touch (f := f) hwriter ⟨fun _ => rfl, hs.alone hwriter rfl, fun _ _ => rfl, id,
    fun _ _ => rfl, fun f' hne => if_neg (Ne.symm hne), ?_, ?_, ?_,
    fun k p _ _ b data _ hb hreads => ⟨b, hb, hreads⟩⟩ ?_ ?_ ?_
  · rcases hstage with rfl | ⟨rfl, -⟩ <;> rintro _ ⟨⟩
  · exact fun k hk => if_neg fun hmem => hk (hvalid k hmem)
  · intro k p hp
    refine (hbecome k p hp).imp_right fun hmem => ?_
    obtain ⟨data, hdata, hfile, hlength, -, hplace⟩ := placesFrom_reads hmem
    have hsome : s.size f ≠ none := by simp [hsize]
    exact ⟨hfile, hsome, data, b, hdata, hlength, hb, hplace b hreads⟩
  · rcases hstage with rfl | ⟨rfl, -⟩ <;> rintro ⟨⟩
  · rcases hstage with rfl | ⟨rfl, rfl⟩
    · trivial
    · intro k hk
      obtain ⟨p, -, heq⟩ := hplaced k hk
      refine ⟨p, (hindex k).trans ?_⟩
      rw [if_pos hk, heq]
      rfl
  · intro _ n' hn'
    cases hsize.symm.trans hn'
    rw [hm hlimit]
    refine ⟨hlimit, fun k p hp hf => ?_⟩
    rcases hbecome k p hp with hold | hmem
    · have := hranged.below k p hold hf
      omega
    · exact (placesFrom_reads hmem).choose_spec.2.2.2.1

theorem Inv.begin (hs : s.Inv limit) {i : ι} (hnew : s.writer i = none)
    (hfresh : ∀ j w, s.writer j = some w → ∀ k ∈ keys items, k ∉ keys w.items) :
    Inv (s.setWriter i ⟨items, .waiting⟩) limit := by
  have hwriters : ∀ j w, (s.setWriter i ⟨items, .waiting⟩).writer j = some w →
      (i = j ∧ w = ⟨items, .waiting⟩) ∨ (i ≠ j ∧ s.writer j = some w) := by
    intro j w hw
    rw [setWriter] at hw
    dsimp only at hw
    split_ifs at hw with hj
    · exact .inl ⟨hj, (Option.some.inj hw).symm⟩
    · exact .inr ⟨hj, hw⟩
  have hstays : ∀ j w, s.writer j = some w →
      (s.setWriter i ⟨items, .waiting⟩).writer j = some w := by
    intro j w hw
    rw [setWriter]
    dsimp only
    rw [if_neg, hw]
    rintro rfl
    cases hnew.symm.trans hw
  constructor
  case writers =>
    intro j w hw
    rcases hwriters j w hw with ⟨-, rfl⟩ | ⟨-, hold⟩
    · trivial
    · exact (hs.writers j w hold).congr (fun _ _ => rfl) (fun _ _ => rfl) (fun _ _ => rfl)
        fun _ _ _ h => h
  case held =>
    intro j w f hw hfile
    rcases hwriters j w hw with ⟨-, rfl⟩ | ⟨-, hold⟩
    · cases hfile
    · exact hs.held j w f hold hfile
  case free => exact hs.free
  case sized => exact hs.sized
  case unlisted =>
    intro j w hw hstage k hk
    rcases hwriters j w hw with ⟨-, rfl⟩ | ⟨-, hold⟩
    · cases hindex : s.index k with
      | none => exact hindex
      | some e =>
        obtain ⟨j', w', hw', hk'⟩ := hs.owned k e hindex
        exact absurd hk' (hfresh j' w' hw' k hk)
    · exact hs.unlisted j w hold hstage k hk
  case owned =>
    intro k e he
    obtain ⟨j, w, hw, hk⟩ := hs.owned k e he
    exact ⟨j, w, hstays j w hw, hk⟩
  case distinct =>
    intro j j' w w' hw hw' hne k hk hk'
    rcases hwriters j w hw with ⟨rfl, rfl⟩ | ⟨-, hold⟩
    · rcases hwriters j' w' hw' with ⟨rfl, -⟩ | ⟨-, hold'⟩
      · exact hne rfl
      · exact hfresh j' w' hold' k hk hk'
    · rcases hwriters j' w' hw' with ⟨rfl, rfl⟩ | ⟨-, hold'⟩
      · exact hfresh j w hold k hk' hk
      · exact hs.distinct j j' w w' hold hold' hne k hk hk'
  case valid =>
    intro k p hp
    obtain ⟨j, w, data, b, hw, hrest⟩ := hs.valid k p hp
    exact ⟨j, w, data, b, hstays j w hw, hrest⟩

theorem Inv.gaveUp (hs : s.Inv limit) {writer : ι → Option (Writer κ φ α)}
    (hwriter : ∀ i, writer i = s.writer i ∨
      ∃ w, s.writer i = some w ∧ writer i = some { w with stage := .ended }) :
    Inv ({ s with writer } : Shelf ι κ φ α) limit := by
  have hold : ∀ j w, writer j = some w → ∃ w₀, s.writer j = some w₀ ∧ w.items = w₀.items ∧
      (w.stage = w₀.stage ∨ w.stage = .ended) := by
    intro j w hw
    rcases hwriter j with heq | ⟨w₀, hw₀, heq⟩
    · exact ⟨w, heq.symm.trans hw, rfl, .inl rfl⟩
    · cases heq.symm.trans hw
      exact ⟨w₀, hw₀, rfl, .inr rfl⟩
  have hstays : ∀ j w, s.writer j = some w → ∃ w', writer j = some w' ∧ w'.items = w.items := by
    intro j w hw
    rcases hwriter j with heq | ⟨w₀, hw₀, heq⟩
    · exact ⟨w, heq.trans hw, rfl⟩
    · cases hw₀.symm.trans hw
      exact ⟨_, heq, rfl⟩
  constructor
  case writers =>
    intro j w hw
    obtain ⟨w₀, hw₀, hitems, hstage | hstage⟩ := hold j w hw
    · rw [hitems, hstage]
      exact (hs.writers j w₀ hw₀).congr (fun _ _ => rfl) (fun _ _ => rfl) (fun _ _ => rfl)
        fun _ _ _ h => h
    · rw [hstage]
      trivial
  case held =>
    intro j w f hw hfile
    obtain ⟨w₀, hw₀, -, hstage | hstage⟩ := hold j w hw
    · exact hs.held j w₀ f hw₀ (hstage ▸ hfile)
    · rw [hstage] at hfile
      cases hfile
  case free => exact hs.free
  case sized => exact hs.sized
  case unlisted =>
    intro j w hw hunlisted k hk
    obtain ⟨w₀, hw₀, hitems, hstage | hstage⟩ := hold j w hw
    · exact hs.unlisted j w₀ hw₀ (hstage ▸ hunlisted) k (hitems ▸ hk)
    · rw [hstage] at hunlisted
      cases hunlisted
  case owned =>
    intro k e he
    obtain ⟨j, w, hw, hk⟩ := hs.owned k e he
    obtain ⟨w', hw', hitems⟩ := hstays j w hw
    exact ⟨j, w', hw', by rw [hitems]; exact hk⟩
  case distinct =>
    intro j j' w w' hw hw' hne k hk
    obtain ⟨w₀, hw₀, hitems, -⟩ := hold j w hw
    obtain ⟨w₀', hw₀', hitems', -⟩ := hold j' w' hw'
    rw [hitems']
    exact hs.distinct j j' w₀ w₀' hw₀ hw₀' hne k (hitems ▸ hk)
  case valid =>
    intro k p hp
    obtain ⟨j, w, data, b, hw, hdata, hrest⟩ := hs.valid k p hp
    obtain ⟨w', hw', hitems⟩ := hstays j w hw
    exact ⟨j, w', data, b, hw', by rw [hitems]; exact hdata, hrest⟩

theorem Step.inv (h : Step s limit s') (hs : s.Inv limit) : s'.Inv limit := by
  cases h with
  | begin i items hnew hfresh => exact hs.begin hnew hfresh
  | take f hwriter hfree => exact hs.take hwriter hfree
  | reserve m hwriter hsize hend => exact hs.reserve hwriter hsize hend
  | list places index hwriter hkeys hplaces hlisted hothers =>
    exact hs.list hwriter hkeys hplaces hlisted hothers
  | openFile hwriter hlimit => exact hs.openFile hwriter hlimit
  | write data rest hwriter hbytes hlimit => exact hs.write hwriter hbytes hlimit
  | giveBack valid hwriter hvalid hstage => exact hs.giveBack hwriter hvalid hstage
  | gaveUp writer hwriter => exact hs.gaveUp hwriter

theorem setWriter_self {i : ι} {w : Writer κ φ α} (h : s.writer i = some w) :
    s.setWriter i w = s := by
  rw [setWriter]
  congr
  funext j
  split_ifs with hj
  · rw [← hj, h]
  · rfl

/-- One writer gives up. -/
theorem Step.giveUp {i : ι} (h : s.writer i = some ⟨items, stage⟩) :
    Step s limit (s.setWriter i ⟨items, .ended⟩) := by
  apply Step.gaveUp
  intro j
  by_cases hj : i = j
  · subst hj
    exact .inr ⟨_, h, if_pos rfl⟩
  · exact .inl (if_neg hj)

/-- A valid entry stays. -/
theorem Step.index_valid (h : Step s limit s') (hs : s.Inv limit) {k : κ} {p : Place φ}
    (hp : s.index k = some (p, true)) : s'.index k = some (p, true) := by
  cases h with
  | list places index hwriter hkeys hplaces hlisted hothers =>
    rename_i items f n
    by_cases hk : k ∈ keys items
    · cases hp.symm.trans (hs.unlisted _ _ hwriter rfl k hk)
    · exact (hothers k hk).trans hp
  | giveBack valid hwriter hvalid hstage =>
    change (if k ∈ valid then (s.index k).map fun e => (e.1, true) else s.index k) = some (p, true)
    simp [hp]
  | _ => exact hp

/-- The steps of any number of writers. -/
def Steps (limit : ℕ) : Shelf ι κ φ α → Shelf ι κ φ α → Prop :=
  Relation.ReflTransGen fun s s' => Step s limit s'

theorem Steps.inv (h : Steps limit s s') (hs : s.Inv limit) : s'.Inv limit := by
  induction h with
  | refl => exact hs
  | tail _ hstep ih => exact hstep.inv ih

/-- A writer keeps its items. -/
theorem Step.writer_items (h : Step s limit s') {i : ι} {w : Writer κ φ α}
    (hw : s.writer i = some w) : ∃ w', s'.writer i = some w' ∧ w'.items = w.items := by
  have hset {j : ι} {items : List (κ × List α)} {stage stage' : Stage φ α}
      (hj : s.writer j = some ⟨items, stage⟩) :
      ∃ w', (if j = i then some (⟨items, stage'⟩ : Writer κ φ α) else s.writer i) = some w' ∧
        w'.items = w.items := by
    by_cases hij : j = i
    · subst hij
      cases hj.symm.trans hw
      exact ⟨_, if_pos rfl, rfl⟩
    · exact ⟨w, (if_neg hij).trans hw, rfl⟩
  cases h with
  | begin j items hnew hfresh =>
    refine ⟨w, (if_neg ?_).trans hw, rfl⟩
    rintro rfl
    cases hnew.symm.trans hw
  | take f hwriter hfree => exact hset hwriter
  | reserve m hwriter hsize hend => exact hset hwriter
  | list places index hwriter hkeys hplaces hlisted hothers => exact hset hwriter
  | openFile hwriter hlimit => exact hset hwriter
  | write data rest hwriter hbytes hlimit => exact hset hwriter
  | giveBack valid hwriter hvalid hstage => exact hset hwriter
  | gaveUp writer hwriter =>
    rcases hwriter i with heq | ⟨w₀, hw₀, heq⟩
    · exact ⟨w, heq.trans hw, rfl⟩
    · cases hw₀.symm.trans hw
      exact ⟨_, heq, rfl⟩

theorem Steps.writer_items (h : Steps limit s s') {i : ι} {w : Writer κ φ α}
    (hw : s.writer i = some w) : ∃ w', s'.writer i = some w' ∧ w'.items = w.items := by
  induction h with
  | refl => exact ⟨w, hw, rfl⟩
  | tail _ hstep ih =>
    obtain ⟨w₁, hw₁, hitems⟩ := ih
    obtain ⟨w₂, hw₂, hitems'⟩ := hstep.writer_items hw₁
    exact ⟨w₂, hw₂, hitems'.trans hitems⟩

/-- A valid entry of a key names the bytes of its item. -/
theorem Inv.readExact (hs : s.Inv limit) {i : ι} {w : Writer κ φ α} (hw : s.writer i = some w)
    (hkeys : (keys w.items).Nodup) {k : κ} {data : List α} (hdata : (k, data) ∈ w.items)
    {p : Place φ} (hp : s.index k = some (p, true)) :
    ∃ b, s.bytes p.file = some b ∧ readExact b p.offset p.length = some data := by
  obtain ⟨j, w', data', b, hw', hdata', hlength, hb, hreads⟩ := hs.valid k p hp
  have hmine : j = i := by
    by_contra hne
    exact hs.distinct j i w' w hw' hw hne k (List.mem_map_of_mem hdata') (List.mem_map_of_mem hdata)
  subst hmine
  cases hw.symm.trans hw'
  have hsame : data' = data :=
    congrArg Prod.snd (List.inj_on_of_nodup_map hkeys hdata' hdata rfl)
  rw [hlength, ← hsame]
  exact ⟨b, hb, readExact_of_reads hreads⟩

theorem Steps.index_valid (h : Steps limit s s') (hs : s.Inv limit) {k : κ} {p : Place φ}
    (hp : s.index k = some (p, true)) : s'.index k = some (p, true) := by
  induction h with
  | refl => exact hp
  | tail hsteps hstep ih => exact hstep.index_valid (Steps.inv hsteps hs) ih

end Steps

/-- A shelf without writers. -/
theorem inv_empty (size : φ → Option ℕ) (bytes : φ → Option (List α))
    (hsize : ∀ f n, size f = some n → n ≤ limit) :
    Inv (⟨size, bytes, fun _ => none, fun _ => none, fun _ => none⟩ : Shelf ι κ φ α) limit where
  writers := by rintro _ _ ⟨⟩
  held := by rintro _ _ _ ⟨⟩
  free := fun f n _ hn => ⟨hsize f n hn, by rintro _ _ ⟨⟩⟩
  sized := by rintro _ _ ⟨⟩
  unlisted := by rintro _ _ ⟨⟩
  owned := by rintro _ _ ⟨⟩
  distinct := by rintro _ _ _ _ ⟨⟩
  valid := by rintro _ _ ⟨⟩

end Shelf

end SharedFiles
