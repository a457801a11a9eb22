import NpmFollower.DatabaseExporting.SlicedFileReader

/-! # Reading a concatenation

The purpose of the sliced reader is an in-memory reader over the slices joined in
a row. It answers as one does wherever it stands in the source that holds its
position; a new reader stands in its first source, which may be empty.
-/

namespace NpmFollower.DatabaseExporting

open Slices

/-- A slice that lies in its file. -/
structure ReadSource.Readable (disk : Disk) (s : ReadSource) : Prop where
  offset_nonneg : 0 ≤ s.offset
  numBytes_nonneg : 0 ≤ s.numBytes
  file : ∃ content, disk s.localPath = .regular content ∧
    s.offset + s.numBytes ≤ content.length

def ReadSource.slice (disk : Disk) (s : ReadSource) : Bytes :=
  match disk s.localPath with
  | .regular content => (content.drop s.offset.toNat).take s.numBytes.toNat
  | _ => []

def concatenation (disk : Disk) (sources : List ReadSource) : Bytes :=
  (sources.map (ReadSource.slice disk)).flatten

/-- An in-memory reader, for the seeks that it allows. -/
structure InMemory where
  content : Bytes
  position : ℤ
  deriving DecidableEq, Repr

namespace InMemory

variable (m : InMemory)

def rest : ℤ := m.content.length - m.position

/-- The number of bytes that a read takes; a negative size asks for all. -/
def taken (size : ℤ) : ℕ := if size < 0 then m.rest.toNat else (min size m.rest).toNat

def window (n : ℕ) : Bytes := (m.content.drop m.position.toNat).take n

def target (offset whence : ℤ) : ℤ :=
  if whence = 0 then offset else if whence = 1 then m.position + offset
  else m.content.length + offset

def moveTo (p : ℤ) : InMemory := { m with position := p }

/-- The reader after an operation. -/
def next : ReaderOp → InMemory
  | .read size => m.moveTo (m.position + m.taken size)
  | .seek offset whence => m.moveTo (m.target offset whence)
  | .tell => m
  | .pickle => m

def answer : ReaderOp → ReaderResult
  | .read size => .bytes (m.window (m.taken size))
  | .seek offset whence => .position (m.target offset whence)
  | .tell => .position m.position
  | .pickle => .copied

def after (ops : List ReaderOp) : InMemory := ops.foldl next m

def results : InMemory → List ReaderOp → List ReaderResult
  | _, [] => []
  | m, op :: ops => m.answer op :: results (m.next op) ops

/-- Seeks have a `whence` that exists and a target that is not negative. -/
def Allows : ReaderOp → Prop
  | .seek offset whence => (whence = 0 ∨ whence = 1 ∨ whence = 2) ∧ 0 ≤ m.target offset whence
  | _ => True

@[simp] theorem moveTo_content (p : ℤ) : (m.moveTo p).content = m.content := rfl

@[simp] theorem moveTo_position (p : ℤ) : (m.moveTo p).position = p := rfl

end InMemory

/-- The operations that ask for bytes need a reader placed where its position is; `placed`
says that it is. A size under -1 reads nothing, where an in-memory reader reads all. -/
def ReaderOp.Served (placed : Prop) (m : InMemory) : ReaderOp → Prop
  | .read size => m.content.length ≤ m.position ∨ size = 0 ∨ (-1 ≤ size ∧ placed)
  | _ => True

def ReaderOp.Places : ReaderOp → Prop
  | .seek _ _ => True
  | _ => False

/-! ## The slices -/

section Sources

variable {disk : Disk} {sources : List ReadSource}

theorem length_slice {s : ReadSource} (h : s.Readable disk) :
    ((s.slice disk).length : ℤ) = s.numBytes := by
  obtain ⟨content, hfile, hlen⟩ := h.file
  have := h.offset_nonneg
  have := h.numBytes_nonneg
  simp only [ReadSource.slice, hfile, List.length_take, List.length_drop]
  omega

theorem lengths_slices (h : ∀ s ∈ sources, s.Readable disk) :
    (sources.map (ReadSource.slice disk)).map (fun b => (b.length : ℤ)) = lengths sources := by
  rw [lengths, List.map_map]
  apply List.map_congr_left
  intro s hs
  exact length_slice (h s hs)

theorem lengths_nonneg (h : ∀ s ∈ sources, s.Readable disk) : ∀ n ∈ lengths sources, 0 ≤ n := by
  intro n hn
  obtain ⟨s, hs, rfl⟩ := List.mem_map.mp hn
  exact (h s hs).numBytes_nonneg

@[simp] theorem length_lengths : (lengths sources).length = sources.length := List.length_map _

theorem totalLength_eq : totalLength sources = (lengths sources).sum := by
  rw [totalLength, cumulativeLengths, cumulative_getD (by simp), ← length_lengths, start_length]

theorem length_concatenation (h : ∀ s ∈ sources, s.Readable disk) :
    ((concatenation disk sources).length : ℤ) = totalLength sources := by
  have hall := length_flatten_take (sources.map (ReadSource.slice disk)) sources.length
  rw [List.take_of_length_le (by simp), lengths_slices h] at hall
  rw [concatenation, hall, totalLength_eq, ← start_length, length_lengths]

end Sources

namespace SlicedFileReader

variable {disk : Disk} {r : SlicedFileReader} {m : InMemory} {placed : Prop}

theorem startOf_eq (i : Fin r.sources.length) : r.startOf i = start (lengths r.sources) i := by
  rw [startOf, cumulativeLengths, cumulative_getD]
  simp only [length_lengths]
  omega

theorem findSourceIdx_end {sources : List ReadSource} {p : ℤ}
    (h : bisectRight (cumulative (lengths sources)) p = sources.length + 1) :
    findSourceIdx sources p = .ok none := by
  simp only [findSourceIdx, cumulativeLengths, h, length_cumulative, length_lengths]
  exact if_pos trivial

theorem findSourceIdx_inside {sources : List ReadSource} {p : ℤ} {i : ℕ} (hi : i < sources.length)
    (h : bisectRight (cumulative (lengths sources)) p = i + 1) :
    findSourceIdx sources p = .ok (some ⟨i, hi⟩) := by
  simp only [findSourceIdx, cumulativeLengths, h, length_cumulative, length_lengths]
  rw [if_neg (by push_cast; omega), dif_pos (by push_cast; omega)]
  simp

/-- The search for the source of an offset meets no assertion, and finds it. -/
theorem destination_within (hnonneg : ∀ n ∈ lengths r.sources, 0 ≤ n) {p : ℤ} (hp : 0 ≤ p) :
    ∃ dst, r.destination p = .ok dst ∧ Within (lengths r.sources) dst p := by
  have hpos : 0 < bisectRight (cumulative (lengths r.sources)) p := bisectRight_pos hp
  have hle : bisectRight (cumulative (lengths r.sources)) p ≤ (cumulative (lengths r.sources)).length :=
    bisectRight_le_length
  have hcurrent := r.currentSource.isLt
  rw [length_cumulative, length_lengths] at hle
  by_cases hend : bisectRight (cumulative (lengths r.sources)) p = r.sources.length + 1
  · refine ⟨r.last, ?_, ?_, ?_⟩
    · rw [destination, findSourceIdx_end hend]
      rfl
    · have hsum : (lengths r.sources).sum ≤ p := sum_le_of_bisectRight (by simpa using hend)
      have hmono := start_mono hnonneg (show (r.last : ℕ) ≤ (lengths r.sources).length by simp [last])
        le_rfl
      rw [start_length] at hmono
      omega
    · intro hlast
      simp only [last, length_lengths] at hlast
      omega
  · obtain ⟨i, hi⟩ := Nat.exists_eq_add_of_lt hpos
    rw [zero_add] at hi
    have hlt : i < r.sources.length := by omega
    refine ⟨⟨i, hlt⟩, ?_, ?_⟩
    · rw [destination, findSourceIdx_inside hlt hi]
      rfl
    · exact within_of_bisectRight hi.symm (by simpa using hlt)

/-- The reader stands at the position of the in-memory one. -/
structure At (disk : Disk) (r : SlicedFileReader) (m : InMemory) : Prop where
  readable : ∀ s ∈ r.sources, s.Readable disk
  content : m.content = concatenation disk r.sources
  file : disk r.source.localPath = .regular r.f.content
  position : r.f.position = m.position + r.source.offset - r.startOf r.currentSource
  from_start : r.startOf r.currentSource ≤ m.position

/-- Where `placed` says so, the reader stands in the source that holds its position; before
that it stands at the beginning of an empty one. -/
structure Tracks (disk : Disk) (placed : Prop) (r : SlicedFileReader) (m : InMemory) : Prop
    extends At disk r m where
  within : placed → Within (lengths r.sources) r.currentSource m.position
  fresh : ¬ placed → m.position = 0 ∧ r.source.numBytes = 0

theorem startOf_nonneg (hnonneg : ∀ n ∈ lengths r.sources, 0 ≤ n) (i : Fin r.sources.length) :
    0 ≤ r.startOf i := by
  rw [startOf_eq]
  have hzero : start (lengths r.sources) 0 = 0 := start_zero
  rw [← hzero]
  apply start_mono hnonneg (Nat.zero_le _)
  rw [length_lengths]
  exact i.isLt.le

namespace At

variable (h : At disk r m)

include h

theorem lengths_nonneg : ∀ n ∈ lengths r.sources, 0 ≤ n :=
  DatabaseExporting.lengths_nonneg h.readable

theorem position_nonneg : 0 ≤ m.position :=
  le_trans (startOf_nonneg h.lengths_nonneg _) h.from_start

theorem length_content : (m.content.length : ℤ) = totalLength r.sources := by
  rw [h.content, length_concatenation h.readable]

theorem tell_eq : r.tell = m.position := by
  rw [tell, h.position]
  omega

theorem source_readable : r.source.Readable disk := h.readable _ (List.getElem_mem _)

theorem offset_le : r.source.offset ≤ r.f.position := by
  rw [h.position]
  have := h.from_start
  omega

end At

theorem openRb_readable {s : ReadSource} (h : s.Readable disk) :
    ∃ content, disk.openRb s.localPath = .ok ⟨content, 0⟩ ∧ disk s.localPath = .regular content := by
  obtain ⟨content, hfile, -⟩ := h.file
  exact ⟨content, by rw [Disk.openRb, hfile], hfile⟩

theorem OpenFile.seek_nonneg {f : OpenFile} {offset : ℤ} (h : 0 ≤ offset) :
    f.seek offset = .ok { f with position := offset } :=
  if_neg (by omega)

theorem reopened_file (h : At disk r m) (dst : Fin r.sources.length) :
    ∃ f, r.reopened disk dst = .ok f ∧
      disk (r.sources.get dst).localPath = .regular f.content := by
  by_cases hdst : dst = r.currentSource
  · subst hdst
    exact ⟨r.f, if_neg (by simp), h.file⟩
  · obtain ⟨content, hopen, hfile⟩ := openRb_readable (h.readable _ (List.getElem_mem dst.isLt))
    exact ⟨⟨content, 0⟩, by rw [reopened, if_pos hdst]; exact hopen, hfile⟩

theorem seekTo_tracks (h : At disk r m) {p : ℤ} (hp : 0 ≤ p) :
    ∃ r', r.seekTo disk p = .ok (p, r') ∧ Tracks disk True r' (m.moveTo p) := by
  obtain ⟨dst, hdst, hwithin⟩ := destination_within h.lengths_nonneg hp
  obtain ⟨f, hopen, hfile⟩ := reopened_file h dst
  have hoffset := (h.readable _ (List.getElem_mem dst.isLt)).offset_nonneg
  have hstart := hwithin.1
  rw [← startOf_eq] at hstart
  have hseek : f.seek (p + r.sources[dst].offset - r.startOf dst) =
      .ok { f with position := p + r.sources[dst].offset - r.startOf dst } :=
    OpenFile.seek_nonneg (by simp only [Fin.getElem_fin]; omega)
  refine ⟨⟨r.sources, dst, ⟨f.content, p + r.sources[dst].offset - r.startOf dst⟩⟩, ?_, ?_⟩
  · have hback : p + r.sources[dst].offset - r.startOf dst + r.startOf dst -
        r.sources[dst].offset = p := by omega
    simp only [seekTo, hdst, bind, Except.bind, hopen, hseek, pure, Except.pure, hback]
  · exact ⟨⟨h.readable, h.content, hfile, rfl, hstart⟩, fun _ => hwithin, fun hn => absurd trivial hn⟩

/-- A seek that is allowed gives its target, and places the reader. -/
theorem seek_tracks (h : At disk r m) {offset whence : ℤ}
    (hallows : m.Allows (.seek offset whence)) :
    ∃ r', r.seek disk offset whence = .ok (m.target offset whence, r') ∧
      Tracks disk True r' (m.moveTo (m.target offset whence)) := by
  obtain ⟨hwhence, htarget⟩ := hallows
  obtain ⟨r', hseek, htracks⟩ := seekTo_tracks h htarget
  refine ⟨r', ?_, htracks⟩
  rw [← hseek, seek, InMemory.target, h.tell_eq, h.length_content]
  rcases hwhence with rfl | rfl | rfl <;> simp

theorem setstate_getstate (h : At disk r m) : r.getstate.setstate disk = .ok r := by
  obtain ⟨content, hopen, hfile⟩ := openRb_readable h.source_readable
  have hsame : content = r.f.content := by
    have heq := hfile.symm.trans h.file
    injection heq
  subst hsame
  have hoffset := h.source_readable.offset_nonneg
  have hle := h.offset_le
  have hseek := OpenFile.seek_nonneg (f := ⟨r.f.content, 0⟩) (show 0 ≤ r.f.position by omega)
  simp only [PickledReader.setstate, getstate]
  rw [show r.sources[r.currentSource] = r.source from rfl, hopen]
  simp only [bind, Except.bind, hseek, pure, Except.pure]

/-! ## Reads -/

theorem start_next (r : SlicedFileReader) :
    start (lengths r.sources) (r.currentSource + 1) =
      r.startOf r.currentSource + r.source.numBytes := by
  rw [start_succ (by simp), startOf_eq]
  simp [lengths, source]

/-- The bytes of a window that ends in the source it begins in. -/
theorem bytes_eq (h : At disk r m) {k : ℕ}
    (hk : m.position + k ≤ start (lengths r.sources) (r.currentSource + 1)) :
    r.f.bytes k = m.window k := by
  have hpos := h.position
  have hfrom := h.from_start
  have hp := h.position_nonneg
  have hoffset := h.source_readable.offset_nonneg
  have hslices := lengths_slices h.readable
  have hnext := start_next r
  have hi : (r.currentSource : ℕ) < (r.sources.map (ReadSource.slice disk)).length := by simp
  have hpiece : (r.sources.map (ReadSource.slice disk))[(r.currentSource : ℕ)] =
      (r.f.content.drop r.source.offset.toNat).take r.source.numBytes.toNat := by
    rw [List.getElem_map]
    change r.source.slice disk = _
    simp only [ReadSource.slice, h.file]
  have hbegin := length_flatten_take (r.sources.map (ReadSource.slice disk)) r.currentSource
  rw [hslices, ← startOf_eq] at hbegin
  have hwindow := take_drop_flatten (p := m.position.toNat) (k := k) hi
    (by rw [hslices, ← startOf_eq]; omega) (by rw [hslices]; omega)
  rw [InMemory.window, h.content, concatenation, hwindow, hpiece, List.drop_take, List.take_take,
    List.drop_drop, OpenFile.bytes, Int.toNat_natCast]
  congr 1
  · omega
  · congr 1
    omega

theorem window_length {k : ℕ} (hp : 0 ≤ m.position) (hk : m.position + k ≤ m.content.length) :
    (m.window k).length = k := by
  rw [InMemory.window, List.length_take, List.length_drop]
  omega

/-- After the bytes of a turn, the reader goes on to the source that its position is in. -/
theorem advance_tracks (h : At disk r m)
    (hto : m.position ≤ start (lengths r.sources) (r.currentSource + 1)) :
    ∃ r', r.advance disk = .ok r' ∧ Tracks disk True r' m := by
  obtain ⟨dst, hdst, hwithin⟩ := destination_within h.lengths_nonneg h.position_nonneg
  by_cases hsame : dst = r.currentSource
  · subst hsame
    refine ⟨r, ?_, h, fun _ => hwithin, fun hn => absurd trivial hn⟩
    simp [advance, h.tell_eq, hdst, bind, Except.bind, pure, Except.pure]
  · have hread := h.readable _ (List.getElem_mem dst.isLt)
    obtain ⟨content, hopen, hfile⟩ := openRb_readable hread
    have hstart : start (lengths r.sources) dst = m.position :=
      hwithin.start_eq h.lengths_nonneg (by simp) (by simp)
        (fun heq => hsame (Fin.ext heq)) (by rw [← startOf_eq]; exact h.from_start) hto
    rw [← startOf_eq] at hstart
    have hseek := OpenFile.seek_nonneg (f := ⟨content, 0⟩) hread.offset_nonneg
    refine ⟨⟨r.sources, dst, ⟨content, r.sources[dst].offset⟩⟩, ?_,
      ⟨h.readable, h.content, hfile, ?_, hstart.le⟩, fun _ => hwithin, fun hn => absurd trivial hn⟩
    · simp [advance, h.tell_eq, hdst, bind, Except.bind, pure, Except.pure, hsame] at hopen hseek ⊢
      simp [hopen, hseek]
    · change r.sources[dst].offset = m.position + r.sources[dst].offset - r.startOf dst
      omega

/-- A turn of a placed reader reads the first bytes that are still to be read. -/
theorem readTurn_tracks (h : Tracks disk True r m) {remaining : ℤ} (hpos : 0 < remaining)
    (hrest : m.position + remaining ≤ m.content.length) :
    ∃ (n : ℕ) (r' : SlicedFileReader), 0 < n ∧ (n : ℤ) ≤ remaining ∧
      r.readTurn disk remaining = .ok (m.window n, r') ∧
      Tracks disk True r' (m.moveTo (m.position + n)) := by
  have hnext := start_next r
  have hlt : m.position < start (lengths r.sources) (r.currentSource + 1) := by
    apply (h.within trivial).lt_next (by simp)
    rw [← totalLength_eq, ← h.length_content]
    omega
  have hposition := h.position
  obtain ⟨n, hn⟩ : ∃ n : ℕ, (n : ℤ) =
      min remaining (r.source.numBytes + r.source.offset - r.f.position) :=
    ⟨_, Int.toNat_of_nonneg (by omega)⟩
  have hbytes : r.f.bytes n = m.window n := bytes_eq h.toAt (by omega)
  have hlength : (m.window n).length = n := window_length h.position_nonneg (by omega)
  have hskip : At disk { r with f := r.f.skip n } (m.moveTo (m.position + n)) := by
    constructor
    · exact h.readable
    · exact h.content
    · exact h.file
    · change r.f.position + (r.f.bytes n).length = m.position + n + r.source.offset -
        r.startOf r.currentSource
      rw [hbytes, hlength]
      omega
    · change r.startOf r.currentSource ≤ m.position + n
      have := h.from_start
      omega
  obtain ⟨r', hadvance, htracks⟩ := advance_tracks hskip (by
    change m.position + n ≤ start (lengths r.sources) (r.currentSource + 1)
    omega)
  refine ⟨n, r', by omega, by omega, ?_, htracks⟩
  simp only [readTurn]
  rw [if_neg (by omega), ← hn, hbytes, hlength, if_neg (by simp)]
  simp only [hadvance, bind, Except.bind, pure, Except.pure]

theorem window_append {a b : ℕ} (hp : 0 ≤ m.position) :
    m.window (a + b) = m.window a ++ (m.moveTo (m.position + a)).window b := by
  rw [InMemory.window, List.take_add, List.drop_drop]
  simp only [InMemory.window, InMemory.moveTo_content, InMemory.moveTo_position]
  congr 3
  omega

theorem readTurns_tracks (h : Tracks disk True r m) {fuel : ℕ} {size numRead : ℤ} {k : ℕ}
    (buffer : Bytes) (hk : (k : ℤ) = size - numRead) (hfuel : k ≤ fuel)
    (hrest : m.position + k ≤ m.content.length) :
    ∃ r', readTurns disk size fuel numRead buffer r = .ok (buffer ++ m.window k, r') ∧
      Tracks disk True r' (m.moveTo (m.position + k)) := by
  induction fuel generalizing r m numRead buffer k with
  | zero =>
    have hzero : k = 0 := by omega
    subst hzero
    refine ⟨r, ?_, ?_⟩
    · rw [readTurns, if_neg (by omega)]
      simp [InMemory.window]
    · simpa [InMemory.moveTo] using h
  | succ fuel ih =>
    by_cases hmore : numRead < size
    · obtain ⟨n, r₁, hn, hle, hturn, htracks⟩ := readTurn_tracks h
        (show 0 < size - numRead by omega) (by omega)
      have hlength : (m.window n).length = n := window_length h.position_nonneg (by omega)
      have hk' : ((k - n : ℕ) : ℤ) = size - (numRead + n) := by omega
      obtain ⟨r', hturns, hend⟩ := ih htracks (buffer ++ m.window n) hk' (by omega)
        (by rw [InMemory.moveTo_position, InMemory.moveTo_content]; omega)
      refine ⟨r', ?_, ?_⟩
      · rw [readTurns, if_pos hmore]
        simp only [hturn, bind, Except.bind, hlength, hturns]
        rw [List.append_assoc, ← window_append h.position_nonneg, Nat.add_sub_cancel' (by omega)]
      · have hsum : m.position + n + ((k - n : ℕ) : ℤ) = m.position + k := by omega
        simpa [InMemory.moveTo, hsum] using hend
    · have hzero : k = 0 := by omega
      subst hzero
      refine ⟨r, ?_, ?_⟩
      · rw [readTurns, if_neg hmore]
        simp [InMemory.window]
      · simpa [InMemory.moveTo] using h

theorem Tracks.of_placed {q : Prop} (h : Tracks disk True r m) (hq : q) : Tracks disk q r m :=
  ⟨h.toAt, fun _ => h.within trivial, fun hn => absurd hq hn⟩

theorem clampedSize_eq (h : At disk r m) (size : ℤ) :
    r.clampedSize size = if size = -1 then m.rest else min size m.rest := by
  rw [clampedSize, h.tell_eq, ← h.length_content]
  rfl

theorem readTurns_done {size numRead : ℤ} {fuel : ℕ} {buffer : Bytes} (h : size ≤ numRead) :
    readTurns disk size fuel numRead buffer r = .ok (buffer, r) := by
  cases fuel <;> rw [readTurns, if_neg (by omega)]

/-- A reader with nothing to read gives no bytes and stays where it is, placed or not. -/
theorem read_nothing {size : ℤ} (hsize : r.clampedSize size ≤ 0) :
    r.read disk size = .ok ([], r) :=
  readTurns_done hsize

theorem read_tracks (h : Tracks disk True r m) {size : ℤ} (hsize : -1 ≤ size) :
    ∃ r', r.read disk size = .ok (m.window (m.taken size), r') ∧
      Tracks disk True r' (m.moveTo (m.position + m.taken size)) := by
  have hclamped := clampedSize_eq h.toAt size
  by_cases hpos : 0 < r.clampedSize size
  · have htaken : (m.taken size : ℤ) = r.clampedSize size := by
      rw [hclamped] at hpos ⊢
      rw [InMemory.taken]
      split_ifs at hpos ⊢ <;> omega
    have hle : (m.taken size : ℤ) ≤ m.rest := by
      rw [htaken, hclamped]
      split_ifs <;> omega
    obtain ⟨r', hturns, htracks⟩ := readTurns_tracks h []
      (show (m.taken size : ℤ) = r.clampedSize size - 0 by omega)
      (show m.taken size ≤ (r.clampedSize size).toNat by omega)
      (by rw [InMemory.rest] at hle; omega)
    exact ⟨r', hturns, htracks⟩
  · have htaken : m.taken size = 0 := by
      rw [hclamped] at hpos
      rw [InMemory.taken]
      split_ifs at hpos ⊢ <;> omega
    refine ⟨r, ?_, ?_⟩
    · rw [read_nothing (by omega), htaken]
      simp [InMemory.window]
    · simpa [htaken, InMemory.moveTo] using h

/-- An operation that is served gives the in-memory reader's result. -/
theorem perform_tracks (h : Tracks disk placed r m) {op : ReaderOp} (hallows : m.Allows op)
    (hserved : op.Served placed m) :
    ∃ r', r.perform disk op = .ok (m.answer op, r') ∧
      Tracks disk (placed ∨ op.Places) r' (m.next op) := by
  cases op with
  | read size =>
    by_cases hsome : m.position < m.content.length ∧ size ≠ 0
    · obtain ⟨hsize, hplaced⟩ : -1 ≤ size ∧ placed := by
        rcases hserved with hend | hzero | hboth
        · omega
        · exact absurd hzero hsome.2
        · exact hboth
      obtain ⟨r', hread, htracks⟩ := read_tracks ⟨h.toAt, fun _ => h.within hplaced,
        fun hn => absurd trivial hn⟩ hsize
      refine ⟨r', ?_, htracks.of_placed (Or.inl hplaced)⟩
      simp only [perform, hread, bind, Except.bind, pure, Except.pure, InMemory.answer]
    · have hclamped := clampedSize_eq h.toAt size
      have hnothing : m.taken size = 0 ∧ r.clampedSize size ≤ 0 := by
        rw [hclamped, InMemory.taken, InMemory.rest]
        split_ifs <;> omega
      refine ⟨r, ?_, ?_⟩
      · simp only [perform, read_nothing hnothing.2, bind, Except.bind, pure, Except.pure,
          InMemory.answer, hnothing.1]
        simp [InMemory.window]
      · simpa [InMemory.next, hnothing.1, InMemory.moveTo, ReaderOp.Places] using h
  | seek offset whence =>
    obtain ⟨r', hseek, htracks⟩ := seek_tracks h.toAt hallows
    refine ⟨r', ?_, htracks.of_placed (Or.inr trivial)⟩
    simp only [perform, hseek, bind, Except.bind, pure, Except.pure, InMemory.answer]
  | tell =>
    refine ⟨r, ?_, ?_⟩
    · rw [perform, h.tell_eq, InMemory.answer]
    · simpa [InMemory.next, ReaderOp.Places] using h
  | pickle =>
    refine ⟨r, ?_, ?_⟩
    · simp only [perform, setstate_getstate h.toAt, bind, Except.bind, pure, Except.pure,
        InMemory.answer]
    · simpa [InMemory.next, ReaderOp.Places] using h

/-- A reader at the beginning of an empty source fails the assertion of its first turn. -/
theorem readTurn_fresh (h : Tracks disk placed r m) (hfresh : ¬ placed) (remaining : ℤ) :
    r.readTurn disk remaining = .error .assertionError := by
  have hzero := h.fresh hfresh
  have hposition := h.position
  have hfrom := h.from_start
  rw [readTurn]
  simp only
  rw [if_pos (by omega)]

/-- A read that is not served does not give the in-memory reader's bytes. -/
theorem perform_unserved (h : Tracks disk placed r m) {op : ReaderOp}
    (hunserved : ¬ op.Served placed m) (r' : SlicedFileReader) :
    r.perform disk op ≠ .ok (m.answer op, r') := by
  cases op with
  | read size =>
    simp only [ReaderOp.Served, not_or, not_and, not_le] at hunserved
    obtain ⟨hrest, hzero, hplaced⟩ := hunserved
    have hclamped := clampedSize_eq h.toAt size
    by_cases hsize : -1 ≤ size
    · have hpos : 0 < r.clampedSize size := by
        rw [hclamped, InMemory.rest]
        split_ifs <;> omega
      obtain ⟨fuel, hfuel⟩ : ∃ fuel, (r.clampedSize size).toNat = fuel + 1 :=
        ⟨(r.clampedSize size).toNat - 1, by omega⟩
      have hread : r.read disk size = .error .assertionError := by
        rw [read, hfuel, readTurns, if_pos hpos]
        simp only [readTurn_fresh h (hplaced hsize), bind, Except.bind]
      simp [perform, hread, bind, Except.bind]
    · have hnothing : r.clampedSize size ≤ 0 := by
        rw [hclamped]
        split_ifs <;> omega
      have htaken : (m.taken size : ℤ) = m.content.length - m.position := by
        rw [InMemory.taken, if_pos (by omega), InMemory.rest]
        omega
      have hlength : (m.window (m.taken size)).length = m.taken size :=
        window_length h.position_nonneg (by omega)
      intro heq
      simp only [perform, read_nothing hnothing, bind, Except.bind, pure, Except.pure,
        InMemory.answer, Except.ok.injEq, Prod.mk.injEq, ReaderResult.bytes.injEq] at heq
      rw [← heq.1] at hlength
      simp only [List.length_nil] at hlength
      omega
  | seek offset whence => exact absurd trivial hunserved
  | tell => exact absurd trivial hunserved
  | pickle => exact absurd trivial hunserved

theorem init_tracks {sources : List ReadSource} (hne : sources ≠ [])
    (hread : ∀ s ∈ sources, s.Readable disk) :
    ∃ r, init disk sources = .ok r ∧
      Tracks disk (0 < (sources.head hne).numBytes) r ⟨concatenation disk sources, 0⟩ := by
  obtain ⟨s, sources, rfl⟩ := List.exists_cons_of_ne_nil hne
  have hs := hread s List.mem_cons_self
  obtain ⟨content, hopen, hfile⟩ := openRb_readable hs
  have hseek := OpenFile.seek_nonneg (f := ⟨content, 0⟩) hs.offset_nonneg
  have hnonneg := hs.numBytes_nonneg
  refine ⟨⟨s :: sources, ⟨0, by simp⟩, ⟨content, s.offset⟩⟩, ?_, ⟨hread, rfl, hfile, ?_, ?_⟩, ?_, ?_⟩
  · rw [init, dif_pos (by simp)]
    simp only [List.getElem_cons_zero, hopen, hseek, bind, Except.bind, pure, Except.pure]
  · rw [startOf_eq, start_zero]
    change s.offset = 0 + s.offset - 0
    omega
  · rw [startOf_eq, start_zero]
  · intro hplaced
    refine ⟨by rw [start_zero], fun _ => ?_⟩
    simpa [start, lengths] using hplaced
  · intro hfresh
    simp only [List.head_cons] at hfresh
    refine ⟨rfl, ?_⟩
    change s.numBytes = 0
    omega

end SlicedFileReader

/-- A condition on each operation of a sequence and those before it. -/
theorem forall_split_cons {α : Type} {P : List α → α → Prop} {x : α} {xs : List α} :
    (∀ before y after, x :: xs = before ++ y :: after → P before y) ↔
      P [] x ∧ ∀ before y after, xs = before ++ y :: after → P (x :: before) y := by
  constructor
  · intro h
    exact ⟨h [] x xs rfl, fun before y after heq => h (x :: before) y after (by rw [heq]; rfl)⟩
  · rintro ⟨hhead, htail⟩ before y after heq
    cases before with
    | nil =>
      obtain ⟨rfl, rfl⟩ := List.cons.inj heq
      exact hhead
    | cons z before =>
      obtain ⟨rfl, hrest⟩ := List.cons.inj heq
      exact htail before y after hrest

theorem performAll_iff {disk : Disk} {placed : Prop} {r : SlicedFileReader} {m : InMemory}
    {ops : List ReaderOp} (h : r.Tracks disk placed m)
    (hallows : ∀ before op after, ops = before ++ op :: after → (m.after before).Allows op) :
    performAll (SlicedFileReader.perform disk) r ops = .ok (m.results ops) ↔
      ∀ before op after, ops = before ++ op :: after →
        op.Served (placed ∨ ∃ o ∈ before, o.Places) (m.after before) := by
  induction ops generalizing r m placed with
  | nil => simp [performAll, InMemory.results]
  | cons op ops ih =>
    rw [forall_split_cons] at hallows ⊢
    by_cases hserved : op.Served placed m
    · obtain ⟨r', hperform, htracks⟩ := SlicedFileReader.perform_tracks h hallows.1 hserved
      have hrest := ih htracks hallows.2
      have hcons : performAll (SlicedFileReader.perform disk) r (op :: ops) =
          .ok (m.results (op :: ops)) ↔
          performAll (SlicedFileReader.perform disk) r' ops = .ok ((m.next op).results ops) := by
        simp only [performAll, hperform, bind, Except.bind, InMemory.results]
        cases performAll (SlicedFileReader.perform disk) r' ops <;> simp [pure, Except.pure]
      rw [hcons, hrest]
      simp only [List.not_mem_nil, false_and, exists_false, or_false, InMemory.after,
        List.foldl_nil, List.foldl_cons, List.exists_mem_cons_iff, or_assoc, hserved, true_and]
    · constructor
      · intro heq
        exfalso
        cases hperform : r.perform disk op with
        | error e => simp [performAll, hperform, bind, Except.bind] at heq
        | ok both =>
          obtain ⟨result, r'⟩ := both
          apply SlicedFileReader.perform_unserved h hserved r'
          rw [hperform]
          simp only [performAll, hperform, bind, Except.bind, InMemory.results] at heq
          cases hrest : performAll (SlicedFileReader.perform disk) r' ops with
          | error e => simp [hrest] at heq
          | ok results =>
            simp only [hrest, pure, Except.pure, Except.ok.injEq, List.cons.injEq] at heq
            rw [heq.1]
      · rintro ⟨hhead, -⟩
        exact absurd (by simpa [InMemory.after] using hhead) hserved

/-- The reader answers a sequence of operations as an in-memory reader over the concatenation
does, exactly where every read asks for a size that is not under -1 and comes after a seek or
finds a first slice that is not empty, or is a read of no bytes or at the end. -/
theorem SlicedFileReader.results_eq_iff {disk : Disk} {sources : List ReadSource}
    (hne : sources ≠ []) (hread : ∀ s ∈ sources, s.Readable disk) {ops : List ReaderOp}
    (hallows : ∀ before op after, ops = before ++ op :: after →
      ((InMemory.mk (concatenation disk sources) 0).after before).Allows op) :
    SlicedFileReader.results disk sources ops =
        .ok ((InMemory.mk (concatenation disk sources) 0).results ops) ↔
      ∀ before op after, ops = before ++ op :: after →
        op.Served (0 < (sources.head hne).numBytes ∨ ∃ o ∈ before, o.Places)
          ((InMemory.mk (concatenation disk sources) 0).after before) := by
  obtain ⟨r, hinit, htracks⟩ := init_tracks hne hread
  rw [← performAll_iff htracks hallows]
  simp only [results, hinit, bind, Except.bind]

/-- Two slices of one file of three bytes, the first with nothing in it. -/
theorem SlicedFileReader.results_ne_emptyFirst :
    (ReadSource.mk ⟨false, ["f"]⟩ 0 0).Readable (fun _ => .regular [1, 2, 3]) ∧
      (ReadSource.mk ⟨false, ["f"]⟩ 1 2).Readable (fun _ => .regular [1, 2, 3]) ∧
      results (fun _ => .regular [1, 2, 3]) [⟨⟨false, ["f"]⟩, 0, 0⟩, ⟨⟨false, ["f"]⟩, 1, 2⟩]
        [.read (-1)] = .error .assertionError ∧
      (InMemory.mk (concatenation (fun _ => .regular [1, 2, 3])
        [⟨⟨false, ["f"]⟩, 0, 0⟩, ⟨⟨false, ["f"]⟩, 1, 2⟩]) 0).results [.read (-1)] =
        [.bytes [2, 3]] := by
  refine ⟨⟨by decide, by decide, _, rfl, by decide⟩, ⟨by decide, by decide, _, rfl, by decide⟩,
    ?_, ?_⟩
  · decide +kernel
  · decide +kernel

theorem SlicedFileReader.results_eq_twoSlices :
    results (fun _ => .regular [1, 2, 3]) [⟨⟨false, ["f"]⟩, 2, 1⟩, ⟨⟨false, ["f"]⟩, 0, 2⟩]
        [.read 2] = .ok [.bytes [3, 1]] := by
  have hread : ∀ s ∈ [ReadSource.mk ⟨false, ["f"]⟩ 2 1, ⟨⟨false, ["f"]⟩, 0, 2⟩],
      s.Readable fun _ => .regular [1, 2, 3] := by
    intro s hs
    rcases List.mem_pair.mp hs with rfl | rfl
    · exact ⟨by decide, by decide, _, rfl, by decide⟩
    · exact ⟨by decide, by decide, _, rfl, by decide⟩
  apply (results_eq_iff (by decide) hread ?_).mpr
  · intro before op after heq
    obtain ⟨rfl, rfl, rfl⟩ : before = [] ∧ op = .read 2 ∧ after = [] := by
      simpa [List.singleton_eq_append_iff] using heq
    exact Or.inr (Or.inr ⟨by decide, Or.inl (by decide)⟩)
  · intro before op after heq
    obtain ⟨rfl, rfl, rfl⟩ : before = [] ∧ op = .read 2 ∧ after = [] := by
      simpa [List.singleton_eq_append_iff] using heq
    exact trivial

end NpmFollower.DatabaseExporting
