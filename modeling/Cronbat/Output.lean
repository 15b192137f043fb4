import Mathlib

/-! The writers a run's output goes through: `runner.RingBuffer`, which keeps the tail that the
run record stores, `runlog.CappedFileWriter`, which persists the head of each stream to the
run's log file, and `runner.teeWriter`, which feeds one stream to both. A Go `[]byte` is a
`List UInt8`, a `Write` returns its count and its error (`none` for nil), and a sequence of
`Write` calls on one writer is `writeAll`. -/
namespace Cronbat.Output

/-- The reply of an `io.Writer`'s `Write`: the count, and the error (`none` for nil). -/
abbrev Reply := Nat × Option String

/-- Successive `Write` calls on one writer: the writer after them and each call's reply. -/
def writeAll {σ : Type} (write : σ → List UInt8 → σ × Reply) : σ → List (List UInt8) → σ × List Reply
  | w, [] => (w, [])
  | w, p :: ps => ((writeAll write (write w p).1 ps).1, (write w p).2 :: (writeAll write (write w p).1 ps).2)

section WriteAll
variable {σ : Type} (write : σ → List UInt8 → σ × Reply)

@[simp] theorem writeAll_nil (w : σ) : writeAll write w [] = (w, []) := rfl

@[simp] theorem writeAll_cons (w : σ) (p : List UInt8) (ps : List (List UInt8)) :
    writeAll write w (p :: ps) =
      ((writeAll write (write w p).1 ps).1, (write w p).2 :: (writeAll write (write w p).1 ps).2) := rfl

/-- A writer whose every `Write` returns `(len(p), nil)` does so for every call of a sequence. -/
theorem writeAll_replies {write} (reply : ∀ w p, (write w p).2 = (p.length, none)) (w : σ)
    (ps : List (List UInt8)) : (writeAll write w ps).2 = ps.map fun p => (p.length, none) := by
  induction ps generalizing w with
  | nil => rfl
  | cons p ps ih => simp only [writeAll_cons, reply, ih, List.map_cons]

end WriteAll

/-- Go's `copy(dst, src)`: the first `min(len(dst), len(src))` elements of `dst` are overwritten. -/
def copy (dst src : List UInt8) : List UInt8 := src.take dst.length ++ dst.drop src.length

/-- `copy(dst[off:], src)`: the slice shares `dst`'s array, so the result is the whole of `dst`. -/
def copyAt (dst : List UInt8) (off : Nat) (src : List UInt8) : List UInt8 :=
  dst.take off ++ copy (dst.drop off) src

@[simp] theorem copy_length (dst src : List UInt8) : (copy dst src).length = dst.length := by
  simp only [copy, List.length_append, List.length_take, List.length_drop]
  omega

theorem copyAt_length {dst : List UInt8} {off : Nat} (h : off ≤ dst.length) (src : List UInt8) :
    (copyAt dst off src).length = dst.length := by
  simp only [copyAt, List.length_append, List.length_take, copy_length, List.length_drop]
  omega

theorem copy_of_length_le {dst src : List UInt8} (h : src.length ≤ dst.length) :
    copy dst src = src ++ dst.drop src.length := by
  rw [copy, List.take_of_length_le h]

theorem copy_of_le_length {dst src : List UInt8} (h : dst.length ≤ src.length) :
    copy dst src = src.take dst.length := by
  rw [copy, List.drop_eq_nil_of_le h, List.append_nil]

/-! ## The ring buffer -/

/-- `runner.RingBuffer`. -/
structure RingBuffer where
  buf : List UInt8
  size : Nat
  pos : Nat
  full : Bool
  deriving DecidableEq, Repr

/-- `NewRingBuffer`: `make([]byte, size)` is zeroed. -/
def newRingBuffer (size : Nat) : RingBuffer := ⟨List.replicate size 0, size, 0, false⟩

/-- `RingBuffer.Write`. -/
def RingBuffer.write (rb : RingBuffer) (p : List UInt8) : RingBuffer × Reply :=
  let n := p.length
  if n ≥ rb.size then
    ({ rb with buf := copy rb.buf (p.drop (n - rb.size)), pos := 0, full := true }, (n, none))
  else
    let oldPos := rb.pos
    let first := rb.size - rb.pos
    let buf := if first ≥ n then copyAt rb.buf rb.pos p
      else copy (copyAt rb.buf rb.pos (p.take first)) (p.drop first)
    let pos := (rb.pos + n) % rb.size
    ({ rb with buf, pos, full := if !rb.full && pos ≤ oldPos then true else rb.full }, (n, none))

/-- `RingBuffer.String`, as the bytes of the string. -/
def RingBuffer.string (rb : RingBuffer) : List UInt8 :=
  if !rb.full then rb.buf.take rb.pos
  else
    let out := copy (List.replicate rb.size 0) (rb.buf.drop rb.pos)
    copyAt out (min rb.size (rb.buf.length - rb.pos)) (rb.buf.take rb.pos)

/-- The last `min(size, len(s))` bytes of the stream `s`. -/
def lastBytes (size : Nat) (s : List UInt8) : List UInt8 := s.drop (s.length - size)

/-- What the buffer holds after the byte stream `s`. Before the first wrap the stream is
`buf[:pos]`; after it the stream's last `size` bytes are `buf[pos:]` followed by `buf[:pos]`. -/
structure Keeps (rb : RingBuffer) (s : List UInt8) : Prop where
  length : rb.buf.length = rb.size
  pos_lt : rb.pos < rb.size
  full_iff : rb.full = true ↔ rb.size ≤ s.length
  filling : rb.full = false → rb.buf.take rb.pos = s
  wrapped : rb.full = true → rb.buf.drop rb.pos ++ rb.buf.take rb.pos = lastBytes rb.size s

section Tail
variable {rb : RingBuffer} {p s : List UInt8}

theorem write_reply (rb : RingBuffer) (p : List UInt8) : (rb.write p).2 = (p.length, none) := by
  unfold RingBuffer.write; dsimp only; split <;> rfl

@[simp] theorem write_size : (rb.write p).1.size = rb.size := by
  unfold RingBuffer.write; dsimp only; split <;> rfl

theorem write_long (long : rb.size ≤ p.length) :
    (rb.write p).1 = { rb with buf := copy rb.buf (p.drop (p.length - rb.size)), pos := 0, full := true } := by
  simp only [RingBuffer.write, if_pos long]

theorem write_short (short : p.length < rb.size) :
    (rb.write p).1 = { rb with
      buf := if p.length ≤ rb.size - rb.pos then copyAt rb.buf rb.pos p
        else copy (copyAt rb.buf rb.pos (p.take (rb.size - rb.pos))) (p.drop (rb.size - rb.pos)),
      pos := (rb.pos + p.length) % rb.size,
      full := if !rb.full && (rb.pos + p.length) % rb.size ≤ rb.pos then true else rb.full } := by
  simp only [RingBuffer.write, if_neg (Nat.not_le.mpr short), ge_iff_le]

/-- Below the capacity, a write that does not reach the end of `buf` leaves `buf[:pos]` followed
by `p` in front of the new position. -/
theorem write_filling (len : rb.buf.length = rb.size) (fits : rb.pos + p.length < rb.size) :
    (rb.write p).1.buf.take (rb.write p).1.pos = rb.buf.take rb.pos ++ p := by
  rw [write_short (by omega)]
  dsimp only
  rw [if_pos (by omega), Nat.mod_eq_of_lt fits, copyAt, copy_of_length_le (by simp; omega),
    ← List.append_assoc, List.take_left' (by simp; omega)]

/-- Below the capacity, a write drops the `len(p)` oldest bytes of the rotated view
`buf[pos:] ++ buf[:pos]` and appends `p`. -/
theorem write_rotated (len : rb.buf.length = rb.size) (lt : rb.pos < rb.size) (short : p.length < rb.size) :
    (rb.write p).1.buf.drop (rb.write p).1.pos ++ (rb.write p).1.buf.take (rb.write p).1.pos =
      (rb.buf.drop rb.pos ++ rb.buf.take rb.pos).drop p.length ++ p := by
  rw [write_short short]
  obtain ⟨buf, size, pos, full⟩ := rb
  dsimp only at len lt short ⊢
  have whole := List.take_append_drop pos buf
  have lx : (buf.take pos).length = pos := by rw [List.length_take]; omega
  have ly : (buf.drop pos).length = size - pos := by rw [List.length_drop, len]
  generalize buf.take pos = X at whole lx ⊢
  generalize buf.drop pos = Y at whole ly ⊢
  subst whole lx
  simp only [copyAt, List.take_left', List.drop_left']
  by_cases fits : p.length ≤ size - X.length
  · rw [if_pos fits, copy_of_length_le (by omega), @List.drop_append_of_le_length _ Y X _ (by omega)]
    by_cases wraps : X.length + p.length = size
    · rw [wraps, Nat.mod_self, List.drop_eq_nil_of_le (by omega : Y.length ≤ p.length)]
      simp only [List.append_nil, List.drop_zero, List.take_zero, List.nil_append]
    · rw [Nat.mod_eq_of_lt (by omega), ← List.append_assoc, List.drop_left' (List.length_append _ _),
        List.take_left' (List.length_append _ _), List.append_assoc]
  · have l₂ : (p.drop (size - X.length)).length = X.length + p.length - size := by rw [List.length_drop]; omega
    have inner : copy Y (p.take (size - X.length)) = p.take (size - X.length) := by
      rw [copy_of_le_length (by rw [List.length_take]; omega), List.take_of_length_le (by rw [List.length_take]; omega)]
    have outer : copy (X ++ p.take (size - X.length)) (p.drop (size - X.length)) =
        p.drop (size - X.length) ++ (X.drop (X.length + p.length - size) ++ p.take (size - X.length)) := by
      rw [copy_of_length_le (by rw [l₂, List.length_append, List.length_take]; omega), l₂, List.drop_append_of_le_length (by omega)]
    have pos' : (X.length + p.length) % size = X.length + p.length - size := by
      rw [Nat.mod_eq_sub_mod (by omega), Nat.mod_eq_of_lt (by omega)]
    have rhs : (Y ++ X).drop p.length = X.drop (X.length + p.length - size) := by
      rw [List.drop_append_eq_append_drop, List.drop_eq_nil_of_le (by omega), List.nil_append]
      congr 1; omega
    rw [if_neg fits, inner, outer, pos', rhs, List.drop_left' l₂, List.take_left' l₂, List.append_assoc,
      List.take_append_drop]

theorem wrap_pos {a n m : Nat} (lt : a < m) (short : n < m) :
    (a + n) % m = if a + n < m then a + n else a + n - m := by
  split
  · exact Nat.mod_eq_of_lt ‹_›
  · rw [Nat.mod_eq_sub_mod (by omega), Nat.mod_eq_of_lt (by omega)]

theorem write_buf_length (len : rb.buf.length = rb.size) (lt : rb.pos < rb.size) :
    (rb.write p).1.buf.length = rb.size := by
  by_cases long : rb.size ≤ p.length
  · rw [write_long long, copy_length, len]
  · rw [write_short (Nat.lt_of_not_le long)]
    dsimp only
    split <;> simp only [copy_length, copyAt_length (by omega : rb.pos ≤ rb.buf.length), len]

theorem write_pos_lt (lt : rb.pos < rb.size) : (rb.write p).1.pos < rb.size := by
  by_cases long : rb.size ≤ p.length
  · rw [write_long long]; exact Nat.zero_lt_of_lt lt
  · rw [write_short (Nat.lt_of_not_le long)]; exact Nat.mod_lt _ (Nat.zero_lt_of_lt lt)

theorem newRingBuffer_keeps {size : Nat} (pos : 0 < size) : Keeps (newRingBuffer size) [] where
  length := List.length_replicate _ _
  pos_lt := pos
  full_iff := by simp [newRingBuffer]; omega
  filling _ := rfl
  wrapped := Bool.noConfusion

theorem Keeps.string (keeps : Keeps rb s) :
    rb.string = lastBytes rb.size s := by
  cases full : rb.full
  · have filling := keeps.filling full
    have short : s.length < rb.size := by
      have := keeps.pos_lt
      rw [← filling, List.length_take]
      omega
    simp only [RingBuffer.string, full, Bool.not_false, if_true, filling, lastBytes,
      Nat.sub_eq_zero_of_le short.le, List.drop_zero]
  · have len := keeps.length
    have lt := keeps.pos_lt
    have front : min rb.size (rb.buf.length - rb.pos) = (rb.buf.drop rb.pos).length := by
      rw [List.length_drop, len]; omega
    have rest : (List.replicate rb.size (0 : UInt8)).drop (rb.buf.drop rb.pos).length = List.replicate rb.pos 0 := by
      rw [List.drop_replicate, List.length_drop, len]; congr 1; omega
    have back : (List.replicate rb.pos (0 : UInt8)).length = (rb.buf.take rb.pos).length := by
      rw [List.length_replicate, List.length_take, len]; omega
    rw [← keeps.wrapped full]
    simp only [RingBuffer.string, full, Bool.not_true, Bool.false_eq_true, if_false, copyAt, front]
    rw [copy_of_length_le (by rw [List.length_replicate, List.length_drop, len]; omega), List.take_left, List.drop_left,
      rest, copy_of_le_length back.le, back, List.take_length]

/-- Shifting a full view: when the view is `size` bytes ending in the stream's tail and the
stream with `p` reaches `size`, dropping `len(p)` bytes and appending `p` gives the new tail. -/
theorem lastBytes_shift {size : Nat} {Y : List UInt8}
    (view : (Y ++ lastBytes size s).length = size)
    (short : p.length ≤ size) (reaches : size ≤ s.length + p.length) :
    (Y ++ lastBytes size s).drop p.length ++ p = lastBytes size (s ++ p) := by
  simp only [lastBytes, List.length_append, List.length_drop] at view ⊢
  have none : s.length + p.length - size - s.length = 0 := by omega
  rw [List.drop_append_eq_append_drop, List.drop_eq_nil_of_le (by omega), List.nil_append, List.drop_drop,
    List.drop_append_eq_append_drop, none, List.drop_zero]
  congr 2; omega

theorem Keeps.write (keeps : Keeps rb s) (nonempty : p ≠ [] ∨ rb.size ≤ s.length) :
    Keeps (rb.write p).1 (s ++ p) := by
  have len := keeps.length
  have lt := keeps.pos_lt
  by_cases long : rb.size ≤ p.length
  · rw [write_long long]
    have buf : copy rb.buf (p.drop (p.length - rb.size)) = p.drop (p.length - rb.size) := by
      rw [copy_of_le_length (by rw [List.length_drop]; omega), List.take_of_length_le (by rw [List.length_drop]; omega)]
    refine ⟨by simp [len], by simp; omega, by simp; omega, Bool.noConfusion, fun _ => ?_⟩
    simp only [buf, List.drop_zero, List.take_zero, List.append_nil, lastBytes, List.length_append,
      List.drop_append_eq_append_drop, List.drop_eq_nil_of_le (by omega : s.length ≤ s.length + p.length - rb.size),
      List.nil_append]
    congr 1; omega
  · have short := Nat.lt_of_not_le long
    have filling (full : rb.full = false) : rb.pos = s.length := by
      rw [← keeps.filling full, List.length_take]; omega
    have full_iff : (rb.write p).1.full = true ↔ rb.size ≤ (s ++ p).length := by
      rw [write_short short, List.length_append]
      cases full : rb.full
      · have := filling full
        have := keeps.full_iff.not.mp (by simp [full])
        have : p.length ≠ 0 := by simpa [List.length_eq_zero, this] using nonempty
        simp only [Bool.not_false, Bool.true_and, wrap_pos lt short]
        by_cases wraps : rb.pos + p.length < rb.size
        · rw [if_pos wraps, if_neg (by rw [decide_eq_true_eq]; omega)]
          simp only [Bool.false_eq_true, false_iff, not_le]; omega
        · rw [if_neg wraps, if_pos (by rw [decide_eq_true_eq]; omega)]
          simp only [true_iff]; omega
      · simp only [Bool.not_true, Bool.false_and, Bool.false_eq_true, if_false, true_iff]
        have := keeps.full_iff.mp full
        omega
    have size : (rb.write p).1.size = rb.size := write_size
    refine ⟨size ▸ write_buf_length len lt, size ▸ write_pos_lt lt, size ▸ full_iff, fun full' => ?_,
      fun full' => ?_⟩
    · have full : rb.full = false := by
        cases full : rb.full
        · rfl
        · have := keeps.full_iff.mp full
          exact absurd (full_iff.mpr (by simp; omega)) (by simp [full'])
      have fits : rb.pos + p.length < rb.size := by
        have := full_iff.not.mp (by simp [full'])
        simp only [List.length_append, filling full] at this ⊢; omega
      rw [write_filling len fits, keeps.filling full]
    · obtain ⟨Y, view⟩ : ∃ Y, rb.buf.drop rb.pos ++ rb.buf.take rb.pos = Y ++ lastBytes rb.size s := by
        cases full : rb.full
        · refine ⟨rb.buf.drop rb.pos, ?_⟩
          rw [keeps.filling full, lastBytes, Nat.sub_eq_zero_of_le (by have := filling full; omega),
            List.drop_zero]
        · exact ⟨[], keeps.wrapped full⟩
      have whole : (Y ++ lastBytes rb.size s).length = rb.size := by
        rw [← view, List.length_append, List.length_drop, List.length_take, len]; omega
      rw [size, write_rotated len lt short, view,
        lastBytes_shift whole short.le (by simpa using full_iff.mp full')]

@[simp] theorem writeAll_size (ps : List (List UInt8)) :
    (writeAll RingBuffer.write rb ps).1.size = rb.size := by
  induction ps generalizing rb with
  | nil => rfl
  | cons p ps ih => rw [writeAll_cons, ih, write_size]

/-- The run lemma: from a buffer that keeps `s`, any writes in which each empty slice comes once
the stream has reached the buffer's size leave a buffer that keeps the whole stream. -/
theorem Keeps.writeAll (keeps : Keeps rb s) (ps : List (List UInt8))
    (filled : ∀ pre post, ps = pre ++ [] :: post → rb.size ≤ s.length + pre.flatten.length) :
    Keeps (writeAll RingBuffer.write rb ps).1 (s ++ ps.flatten) := by
  induction ps generalizing rb s with
  | nil => simpa using keeps
  | cons p ps ih =>
    have first : p ≠ [] ∨ rb.size ≤ s.length := by
      by_cases empty : p = []
      · exact .inr (by simpa using filled [] ps (by rw [empty]; rfl))
      · exact .inl empty
    rw [writeAll_cons, List.flatten_cons, ← List.append_assoc]
    refine ih (keeps.write first) fun pre post split => ?_
    have := filled (p :: pre) post (by rw [split]; rfl)
    simp only [write_size, List.length_append, List.flatten_cons] at this ⊢
    omega

end Tail

/-- `io.Copy`, which feeds the writers of a run, hands them only non-empty slices: such a
sequence has no empty slice anywhere. -/
theorem not_split_at_empty {ps : List (List UInt8)} (nonempty : [] ∉ ps) (pre post : List (List UInt8)) :
    ps ≠ pre ++ [] :: post :=
  fun split => nonempty (split ▸ List.mem_append_right pre (List.mem_cons_self [] post))

/-- `runlog.CappedFileWriter`; `file` is what the log file `os.Create` opened holds. -/
structure CappedFileWriter where
  file : List UInt8
  maxBytes : Int
  written : Int
  truncated : Bool
  deriving DecidableEq, Repr

/-- `NewCappedFileWriter` over the empty file that `OpenRunWriters` creates. -/
def newCappedFileWriter (maxBytes : Int) : CappedFileWriter := ⟨[], maxBytes, 0, false⟩

/-- The file's own `Write` reply to a slice; the file keeps as many bytes of it as the reply counts. -/
abbrev FileWrite := List UInt8 → Reply

/-- A file that accepts every write in full. -/
def fullWrite : FileWrite := fun b => (b.length, none)

/-- `CappedFileWriter.Write`: file errors are swallowed, so every call returns `(len(p), nil)`. -/
def CappedFileWriter.write (fileWrite : FileWrite) (w : CappedFileWriter) (p : List UInt8) :
    CappedFileWriter × Reply :=
  if w.maxBytes ≤ 0 then ({ w with truncated := true }, (p.length, none))
  else
    let remaining := w.maxBytes - w.written
    if remaining ≤ 0 then ({ w with truncated := true }, (p.length, none))
    else
      let (toWrite, truncated) :=
        if (p.length : Int) > remaining then (p.take remaining.toNat, true) else (p, w.truncated)
      let (n, err) := fileWrite toWrite
      let w := { w with file := w.file ++ toWrite.take n, truncated }
      match err with
      | some _ => (w, (p.length, none))
      | none => ({ w with written := w.written + n }, (p.length, none))

/-- `Write` drops the count of a partial write that fails, though its bytes stay in the file: with
a cap of 10, a 10-byte write that a full disk stores only half of, with an error, leaves 5 bytes in
the file and `WrittenBytes()` at 0; once the disk is freed the next 10-byte write is stored in full,
so the file holds 15 bytes, past the cap, while `WrittenBytes()` reports 10. -/
theorem cappedFileWriter_miscounts_partial_write :
    let diskFull : FileWrite := fun b => (b.length / 2, some "no space left on device")
    let p : List UInt8 := List.replicate 10 0
    let w := ((newCappedFileWriter 10).write diskFull p).1
    w.file.length = 5 ∧ w.written = 0 ∧ (w.write fullWrite p).1.file.length = 15 ∧
      (w.write fullWrite p).1.written = 10 := by
  decide

/-- `teeWriter.Write` over a primary and a secondary writer: the secondary gets the same slice,
and its reply is dropped. -/
def teeWrite {σ τ : Type} (primary : σ → List UInt8 → σ × Reply) (secondary : τ → List UInt8 → τ × Reply)
    (t : σ × τ) (p : List UInt8) : (σ × τ) × Reply :=
  (((primary t.1 p).1, (secondary t.2 p).1), (primary t.1 p).2)

/-- A sequence of writes through a tee is the same sequence on each of its writers, with the
primary's replies. -/
theorem writeAll_teeWrite {σ τ : Type} (primary : σ → List UInt8 → σ × Reply)
    (secondary : τ → List UInt8 → τ × Reply) (t : σ × τ) (ps : List (List UInt8)) :
    writeAll (teeWrite primary secondary) t ps =
      (((writeAll primary t.1 ps).1, (writeAll secondary t.2 ps).1), (writeAll primary t.1 ps).2) := by
  induction ps generalizing t with
  | nil => rfl
  | cons p ps ih => simp only [writeAll_cons, ih]; rfl

section Capped
variable {w : CappedFileWriter} {cap : Nat} {hs : List (List UInt8)} {p : List UInt8}

theorem capped_reply (fileWrite : FileWrite) (w : CappedFileWriter) (p : List UInt8) :
    (w.write fileWrite p).2 = (p.length, none) := by
  unfold CappedFileWriter.write; dsimp only
  split
  · rfl
  · split
    · rfl
    · split <;> rfl

/-- What the writer holds after the writes `hs` into a file that accepts them in full: the file
is the stream's first `cap` bytes and `written` counts them, and `truncated` holds iff the stream
passed the cap or its last write, an empty one, came once the cap was reached. -/
structure Capped (cap : Nat) (w : CappedFileWriter) (hs : List (List UInt8)) : Prop where
  maxBytes : w.maxBytes = cap
  file : w.file = hs.flatten.take cap
  written : w.written = min hs.flatten.length cap
  truncated : w.truncated = true ↔ cap < hs.flatten.length ∨ (hs.flatten.length = cap ∧ hs.getLast? = some [])

theorem newCappedFileWriter_capped : Capped cap (newCappedFileWriter cap) [] where
  maxBytes := rfl
  file := by simp [newCappedFileWriter]
  written := by simp [newCappedFileWriter]
  truncated := by simp [newCappedFileWriter]

theorem Capped.write (capped : Capped cap w hs) (pos : 0 < cap) :
    Capped cap (w.write fullWrite p).1 (hs ++ [p]) := by
  obtain ⟨maxBytes, file, written, truncated⟩ := capped
  have open_ : ¬ w.maxBytes ≤ 0 := by omega
  suffices ∀ s : List UInt8, w.file = s.take cap → w.written = min s.length cap →
      (w.truncated = true → cap ≤ s.length) →
      (w.write fullWrite p).1.maxBytes = cap ∧ (w.write fullWrite p).1.file = (s ++ p).take cap ∧
        (w.write fullWrite p).1.written = min (s.length + p.length) cap ∧
        ((w.write fullWrite p).1.truncated = true ↔ cap < s.length + p.length ∨ (s.length + p.length = cap ∧ p.length = 0)) by
    have ⟨m, f, wr, t⟩ := this hs.flatten file written fun t => by have := truncated.mp t; omega
    have stream : (hs ++ [p]).flatten = hs.flatten ++ p := by rw [List.flatten_append, List.flatten_singleton]
    refine ⟨m, by rw [f, stream], by rw [wr, stream, List.length_append], by simpa [← List.length_eq_zero] using t⟩
  clear file written truncated
  intro s file written truncated
  simp only [CappedFileWriter.write, if_neg open_, fullWrite]
  by_cases room : w.maxBytes - w.written ≤ 0
  · rw [if_pos room]
    have reached : cap ≤ s.length := by omega
    refine ⟨maxBytes, ?_, ?_, ?_⟩
    · simp [file, List.take_append_of_le_length reached]
    · exact written.trans (by omega)
    · exact iff_of_true rfl (by omega)
  · rw [if_neg room]
    have short : s.length < cap := by omega
    have head : (s ++ p).take cap = s ++ p.take (cap - s.length) := by
      rw [List.take_append_eq_append_take, List.take_of_length_le (by omega)]
    by_cases over : (p.length : Int) > w.maxBytes - w.written
    · rw [if_pos over]
      have room : (w.maxBytes - w.written).toNat = cap - s.length := by omega
      dsimp only
      rw [room, List.take_length, List.length_take, file, List.take_of_length_le short.le, head]
      exact ⟨maxBytes, rfl, by omega, iff_of_true rfl (by omega)⟩
    · rw [if_neg over]
      dsimp only
      rw [List.take_length, file, List.take_of_length_le short.le, List.take_of_length_le (by simp; omega)]
      exact ⟨maxBytes, rfl, by omega, iff_of_false (fun t => absurd (truncated t) (by omega)) (by omega)⟩

/-- The run lemma for the capped writer. -/
theorem Capped.writeAll (capped : Capped cap w hs) (pos : 0 < cap) (ps : List (List UInt8)) :
    Capped cap (writeAll (CappedFileWriter.write fullWrite) w ps).1 (hs ++ ps) := by
  induction ps generalizing w hs with
  | nil => simpa using capped
  | cons p ps ih => simpa using ih (capped.write pos)

end Capped

/-- A capped writer over a file that accepts every write in full, after any writes: every call
returns `(len(p), nil)`, the file holds the stream's first `min(L, cap)` bytes and
`WrittenBytes()` counts them, and `Truncated()` holds iff the stream passed the cap, or reached
it exactly with a last write that was empty. -/
theorem cappedFileWriter_keeps_head {cap : Nat} (pos : 0 < cap) (ps : List (List UInt8)) :
    (writeAll (CappedFileWriter.write fullWrite) (newCappedFileWriter cap) ps).2 =
        ps.map (fun p => (p.length, none)) ∧
      (writeAll (CappedFileWriter.write fullWrite) (newCappedFileWriter cap) ps).1.file = ps.flatten.take cap ∧
      (writeAll (CappedFileWriter.write fullWrite) (newCappedFileWriter cap) ps).1.written =
        min ps.flatten.length cap ∧
      ((writeAll (CappedFileWriter.write fullWrite) (newCappedFileWriter cap) ps).1.truncated = true ↔
        cap < ps.flatten.length ∨ (ps.flatten.length = cap ∧ ps.getLast? = some [])) := by
  have ⟨_, file, written, truncated⟩ := newCappedFileWriter_capped.writeAll pos ps
  exact ⟨writeAll_replies (capped_reply fullWrite) _ ps, file, written, truncated⟩

/-- `runner.ringBufSize`. -/
def ringBufSize : Nat := 64 * 1024

/-- Through `Runner.Run`'s tee, whose primary is the run's ring buffer, the capped writer sees the
same writes as when written directly, and each call returns the ring buffer's `(len(p), nil)`. -/
theorem teeWriter_feeds_capped (cap : Nat) (ps : List (List UInt8)) :
    (writeAll (teeWrite RingBuffer.write (CappedFileWriter.write fullWrite))
        (newRingBuffer ringBufSize, newCappedFileWriter cap) ps).1.2 =
        (writeAll (CappedFileWriter.write fullWrite) (newCappedFileWriter cap) ps).1 ∧
      (writeAll (teeWrite RingBuffer.write (CappedFileWriter.write fullWrite))
        (newRingBuffer ringBufSize, newCappedFileWriter cap) ps).2 = ps.map (fun p => (p.length, none)) := by
  rw [writeAll_teeWrite]
  exact ⟨rfl, writeAll_replies write_reply _ ps⟩

end Cronbat.Output
