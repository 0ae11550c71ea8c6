import Lash.ChildOutput
import Lash.Lib.Lines

/-!
# What is logged about the children

`Lines.cut` says which pieces the bytes of an output have, and `Repeat` which of the pieces are
logged. `child_output_by_bytes` is the result: the log, the counter and the buffer depend on the
bytes that have been read, and not on how `read` handed them out.

A call keeps `ChildOutput.Holds`: what stands in the buffer is the start of the next piece, and
there is room for one byte more and for the NUL behind it.
-/

namespace Lash

open Buffer Lines

/-- What fits into the buffer in front of the NUL. -/
abbrev maxLine : Nat := clientOutputBufferSize - 1

theorem maxLine_succ : maxLine + 1 = clientOutputBufferSize := rfl

/-! ## The lines that come again -/

/-- The last complete line, and how often it was there. The counter has 32 bits. -/
structure Repeat where
  lastLine : CStr
  count : UInt32

def Repeat.none : Repeat := ⟨[], 0⟩

namespace Repeat

/-- The piece is the last line once more. -/
def again (r : Repeat) : Piece UInt8 → Bool
  | .line s => 0 < r.count && r.lastLine == s
  | .truncated _ => false

def next (r : Repeat) (piece : Piece UInt8) : Repeat :=
  match piece with
  | .line s => if r.again piece then { r with count := r.count + 1 } else ⟨s, 1⟩
  | .truncated _ => r

def notes (r : Repeat) (piece : Piece UInt8) : List Note :=
  match piece with
  | .line s =>
    if r.again piece then if r.count = 1 then [.repeating] else []
    else loaderCheckLineRepeatEnd r.count ++ [.line s]
  | .truncated s => [.truncated s]

def nextAll (r : Repeat) (pieces : List (Piece UInt8)) : Repeat := pieces.foldl next r

/-- What is logged about some pieces. -/
def allNotes (r : Repeat) : List (Piece UInt8) → List Note
  | [] => []
  | piece :: pieces => r.notes piece ++ (r.next piece).allNotes pieces

/-- The pieces that are not the line before once more. -/
def fresh (r : Repeat) : List (Piece UInt8) → List (Piece UInt8)
  | [] => []
  | piece :: pieces =>
    if r.again piece then (r.next piece).fresh pieces
    else piece :: (r.next piece).fresh pieces

theorem allNotes_append (r : Repeat) (xs ys : List (Piece UInt8)) :
    r.allNotes (xs ++ ys) = r.allNotes xs ++ (r.nextAll xs).allNotes ys := by
  induction xs generalizing r with
  | nil => rfl
  | cons x xs ih => rw [List.cons_append, allNotes, ih, allNotes, List.append_assoc]; rfl

theorem nextAll_append (r : Repeat) (xs ys : List (Piece UInt8)) :
    r.nextAll (xs ++ ys) = (r.nextAll xs).nextAll ys := List.foldl_append

end Repeat

/-- The piece that a note has the text of. -/
def Note.piece? : Note → Option (Piece UInt8)
  | .line s => some (.line s)
  | .truncated s => some (.truncated s)
  | .repeating | .repeated _ => none

theorem loaderCheckLineRepeatEnd_piece? (n : UInt32) :
    (loaderCheckLineRepeatEnd n).filterMap Note.piece? = [] := by
  rw [loaderCheckLineRepeatEnd]
  split <;> rfl

/-- **The pieces that are logged are those that do not repeat a line.** -/
theorem Repeat.allNotes_pieces (r : Repeat) (pieces : List (Piece UInt8)) :
    (r.allNotes pieces).filterMap Note.piece? = r.fresh pieces := by
  induction pieces generalizing r with
  | nil => rfl
  | cons piece pieces ih =>
      rw [allNotes, List.filterMap_append, ih, fresh]
      cases piece with
      | truncated s => rfl
      | line s =>
          rw [notes]
          split
          · split <;> rfl
          · rw [List.filterMap_append, loaderCheckLineRepeatEnd_piece?]
            rfl

/-! ## One read -/

theorem toSize_natCast {n : Nat} (h : n < 2 ^ 64) : toSize n = n := by
  rw [toSize]
  omega

namespace ChildOutput

/-- The output remembers the last line and has its count. -/
structure Remembers (o : ChildOutput) (r : Repeat) : Prop where
  size : o.lastLine.length = clientOutputBufferSize
  lastLine : ∃ post, o.lastLine = r.lastLine ++ 0 :: post
  ends : 0 ∉ r.lastLine
  count : o.lastLineRepeatCount = r.count

/-- What stands in the buffer in front of the write pointer, and the last line. There is room for
one byte more and for the NUL behind it. -/
structure Holds (o : ChildOutput) (p : CStr) (r : Repeat) : Prop where
  size : o.buffer.length = clientOutputBufferSize
  bytes : ∃ post, o.buffer = p ++ post
  ptr : o.bufferPtr = p.length
  room : p.length < maxLine
  plain : newline ∉ p
  ends : 0 ∉ p
  remembers : o.Remembers r

theorem room_nil : ([] : CStr).length < maxLine := by decide

theorem holds_new : new.Holds [] Repeat.none where
  size := List.length_replicate
  bytes := ⟨_, rfl⟩
  ptr := rfl
  room := room_nil
  plain := List.not_mem_nil
  ends := List.not_mem_nil
  remembers :=
    { size := List.length_replicate
      lastLine := ⟨List.replicate (maxLine) 0, rfl⟩
      ends := List.not_mem_nil
      count := rfl }

theorem Remembers.repeats {o : ChildOutput} {r : Repeat} (h : o.Remembers r) (line : CStr) :
    o.repeats line = .ok (r.again (.line line)) := by
  obtain ⟨post, hpost⟩ := h.lastLine
  have hstring : string 0 o.lastLine 0 = some r.lastLine := by
    rw [hpost]
    exact string_append [] rfl h.ends
  rw [ChildOutput.repeats, Repeat.again, h.count, hstring]
  by_cases hcount : 0 < r.count
  · rw [if_pos hcount, decide_eq_true hcount]
    rfl
  · rw [if_neg hcount, decide_eq_false hcount]
    rfl

/-- A line is logged or counted, and takes the place of the last one. -/
theorem takeLine_line {o : ChildOutput} {r : Repeat} (pre l t : List UInt8)
    (hbuffer : o.buffer = pre ++ (l ++ newline :: t)) (hl : 0 ∉ l)
    (hlen : l.length < maxLine) (h : o.Remembers r) :
    ∃ o', o.takeLine pre.length (pre.length + l.length) = .ok (o', r.notes (.line l)) ∧
      o'.buffer = pre ++ (l ++ 0 :: t) ∧ o'.bufferPtr = o.bufferPtr ∧
      o'.Remembers (r.next (.line l)) := by
  have hpoke : poke o.buffer (pre.length + l.length) [0] = some (pre ++ (l ++ 0 :: t)) := by
    have := poke_append (pre ++ l) [newline] [0] t List.length_append rfl
    rw [hbuffer]
    simpa using this
  have hstring : string 0 (pre ++ (l ++ 0 :: t)) pre.length = some l :=
    string_append pre rfl hl
  rw [takeLine, hpoke]
  simp only [access, bind, Except.bind]
  rw [hstring]
  simp only [h.repeats, Repeat.notes, Repeat.next]
  cases hagain : r.again (.line l) with
  | true =>
      refine ⟨{ o with
        buffer := pre ++ (l ++ 0 :: t), lastLineRepeatCount := o.lastLineRepeatCount + 1 },
        ?_, rfl, rfl, ?_⟩
      · simp only [if_true, h.count]
      · exact ⟨h.size, h.lastLine, h.ends, by simp only [if_true, h.count]⟩
  | false =>
      -- The array of the last line is as long as the buffer, so the line and its NUL fit.
      have hfits : 0 + (l ++ [0]).length ≤ o.lastLine.length := by
        rw [h.size, List.length_append, List.length_singleton, ← maxLine_succ]
        omega
      obtain ⟨lastLine, hlast⟩ : ∃ lastLine, poke o.lastLine 0 (l ++ [0]) = some lastLine := by
        rw [poke, if_pos hfits]
        exact ⟨_, rfl⟩
      have hsplit : ∃ post, lastLine = l ++ 0 :: post := by
        rw [poke, if_pos hfits] at hlast
        exact ⟨_, by rw [← Option.some.inj hlast, List.take_zero, List.nil_append,
          List.append_assoc, List.singleton_append]⟩
      refine ⟨{ o with
        buffer := pre ++ (l ++ 0 :: t), lastLine, lastLineRepeatCount := 1 }, ?_, rfl, rfl, ?_⟩
      · simp only [hlast, h.count]
        rfl
      · exact ⟨(poke_length hlast).trans h.size, hsplit, hl, rfl⟩

/-- The inner loop takes the lines off the string that the buffer holds. -/
theorem takeLines_string {fuel : Nat} {o : ChildOutput} {r : Repeat} (pre s : List UInt8)
    {post : List UInt8} (hbuffer : o.buffer = pre ++ (s ++ 0 :: post)) (hs : 0 ∉ s)
    (hfuel : s.length < fuel)
    (hlen : s.length < clientOutputBufferSize) (h : o.Remembers r) :
    ∃ o' lines rest pre', takeLines fuel o pre.length = .ok (o', pre'.length, r.allNotes lines) ∧
      o'.buffer = pre' ++ (rest ++ 0 :: post) ∧
      pre'.length + rest.length = pre.length + s.length ∧ newline ∉ rest ∧ 0 ∉ rest ∧
      o'.bufferPtr = o.bufferPtr ∧ o'.Remembers (r.nextAll lines) ∧
      cut newline maxLine [] s =
        (lines ++ (cut newline maxLine [] rest).1, (cut newline maxLine [] rest).2) := by
  have hsucc := maxLine_succ
  induction fuel generalizing o r pre s with
  | zero => omega
  | succ fuel ih =>
      have hstrchr : strchr 0 o.buffer pre.length newline =
          some (if newline ∈ s then some (pre.length + s.idxOf newline) else none) := by
        rw [hbuffer]
        exact strchr_append pre rfl hs
      rw [takeLines, hstrchr]
      simp only [access, bind, Except.bind]
      by_cases hmem : newline ∈ s
      · obtain ⟨l, t, rfl, hl, hidx⟩ := eq_append_of_mem hmem
        rw [if_pos hmem, hidx]
        have hlt : l.length + 1 + t.length = (l ++ newline :: t).length := by
          rw [List.length_append, List.length_cons]
          omega
        obtain ⟨o₁, htake, hb₁, hp₁, hr₁⟩ := takeLine_line pre l (t ++ 0 :: post)
          (by rw [hbuffer, List.append_assoc]; rfl) (fun hz => hs (List.mem_append_left _ hz))
          (by omega) h
        have hb₁' : o₁.buffer = (pre ++ (l ++ [0])) ++ (t ++ 0 :: post) := by
          rw [hb₁]
          simp
        have hpre : (pre ++ (l ++ [0])).length = pre.length + l.length + 1 := by
          simp only [List.length_append, List.length_singleton]
          omega
        obtain ⟨o₂, lines, rest, pre', hrun, hb₂, hlen₂, hnl, hz, hp₂, hr₂, hcut⟩ :=
          ih _ t hb₁' (fun hz => hs (List.mem_append_right _ (List.mem_cons_of_mem _ hz)))
            (by omega) (by omega) hr₁
        rw [hpre] at hrun
        refine ⟨o₂, .line l :: lines, rest, pre', ?_, hb₂, by omega, hnl, hz, hp₂.trans hp₁, hr₂,
          ?_⟩
        · simp only [htake, hrun]
          rfl
        · rw [cut_line hl (by omega), hcut]
          rfl
      · rw [if_neg hmem]
        exact ⟨o, [], s, pre, rfl, hbuffer, rfl, hmem, hs, rfl, h, rfl⟩

/-- What is left behind the last newline is kept, or logged if there is no room behind it. -/
theorem keepRest_holds {o : ChildOutput} {r : Repeat} {pre rest post : List UInt8}
    (hbuffer : o.buffer = pre ++ (rest ++ 0 :: post))
    (hsize : o.buffer.length = clientOutputBufferSize) (hnl : newline ∉ rest) (hz : 0 ∉ rest)
    (h : o.Remembers r) :
    ∃ o', o.keepRest pre.length rest.length =
        .ok (o', r.allNotes (cut newline maxLine [] rest).1) ∧
      o'.Holds (cut newline maxLine [] rest).2 (r.nextAll (cut newline maxLine [] rest).1) := by
  have hsucc := maxLine_succ
  have hlen : rest.length ≤ maxLine := by
    rw [hbuffer] at hsize
    simp only [List.length_append, List.length_cons] at hsize
    omega
  rw [keepRest]
  by_cases hempty : rest = []
  · subst hempty
    refine ⟨{ o with bufferPtr := 0 }, rfl, ?_⟩
    exact ⟨hsize, ⟨_, rfl⟩, rfl, room_nil, List.not_mem_nil, List.not_mem_nil,
      ⟨h.size, h.lastLine, h.ends, h.count⟩⟩
  · have hne : rest.length ≠ 0 := fun h0 => hempty (List.eq_nil_of_length_eq_zero h0)
    rw [if_pos hne]
    by_cases hfull : rest.length = maxLine
    · have hstring : string 0 o.buffer pre.length = some rest := by
        rw [hbuffer]
        exact string_append pre rfl hz
      rw [if_pos hfull, hstring, cut_full hnl hempty (by simpa using hfull)]
      refine ⟨{ o with bufferPtr := 0 }, rfl, ?_⟩
      exact ⟨hsize, ⟨_, rfl⟩, rfl, room_nil, List.not_mem_nil, List.not_mem_nil,
        ⟨h.size, h.lastLine, h.ends, h.count⟩⟩
    · have hpeek : peek o.buffer pre.length rest.length = some rest := by
        rw [hbuffer]
        exact peek_append pre rest _ rfl
      obtain ⟨buffer, hpoke⟩ : ∃ buffer, poke o.buffer 0 rest = some buffer := by
        rw [poke, if_pos (by omega)]
        exact ⟨_, rfl⟩
      have hsplit : ∃ post, buffer = rest ++ post := by
        rw [poke, if_pos (by omega)] at hpoke
        exact ⟨_, (Option.some.inj hpoke).symm⟩
      have hshort : cut newline maxLine [] rest = ([], rest) := cut_short hnl (by simp; omega)
      rw [if_neg hfull, hpeek, hshort]
      refine ⟨{ o with buffer, bufferPtr := rest.length }, ?_, ?_⟩
      · simp only [access, bind, Except.bind, hpoke]
        rfl
      · exact ⟨(poke_length hpoke).trans hsize, hsplit, rfl, Nat.lt_of_le_of_ne hlen hfull, hnl, hz,
          ⟨h.size, h.lastLine, h.ends, h.count⟩⟩

theorem Holds.maxRead {o : ChildOutput} {p : CStr} {r : Repeat} (h : o.Holds p r) :
    o.maxRead + p.length = maxLine := by
  have hsucc := maxLine_succ
  have hroom := h.room
  have hptr := h.ptr
  rw [ChildOutput.maxRead, toSize]
  rw [clientOutputBufferSize] at *
  omega

/-- **What a read returns is cut up like any other part of the stream**, behind the bytes that were
waiting in the buffer. -/
theorem Holds.receive {o : ChildOutput} {p : CStr} {r : Repeat} {a : ReadAnswer} (h : o.Holds p r)
    (hret : a.ret = a.bytes.length ∨ a.ret = -1 ∧ a.bytes = []) (hz : 0 ∉ a.bytes)
    (hmax : a.bytes.length ≤ o.maxRead) :
    ∃ o', o.receive a = .ok (o', r.allNotes (cut newline maxLine p a.bytes).1) ∧
      o'.Holds (cut newline maxLine p a.bytes).2 (r.nextAll (cut newline maxLine p a.bytes).1) := by
  have hsucc := maxLine_succ
  obtain ⟨free, hfree⟩ := h.bytes
  have hmaxRead := h.maxRead
  have hsize := h.size
  have hfreelen : p.length + free.length = clientOutputBufferSize := by
    rw [← hsize, hfree, List.length_append]
  by_cases hempty : a.bytes = []
  · -- The buffer is written with no bytes, and nothing else happens.
    have hle : ¬ 0 < a.ret := by
      rcases hret with hret | hret
      · rw [hret, hempty]
        exact Int.lt_irrefl 0
      · rw [hret.1]
        decide
    have hpoke : poke o.buffer o.bufferPtr a.bytes = some o.buffer := by
      have := poke_append p [] [] free rfl rfl
      rw [hempty, hfree, h.ptr]
      simpa using this
    rw [ChildOutput.receive, hpoke, hempty]
    exact ⟨o, if_neg hle, h⟩
  · have hpos : 0 < a.bytes.length := List.length_pos_iff.mpr hempty
    have hval : a.ret = a.bytes.length := by
      rcases hret with hret | hret
      · exact hret
      · exact absurd hret.2 hempty
    obtain ⟨old, x, post, rfl, hold⟩ : ∃ old x post, free = old ++ x :: post ∧
        old.length = a.bytes.length := by
      have hlt : a.bytes.length < free.length := by omega
      refine ⟨free.take a.bytes.length, free[a.bytes.length], free.drop (a.bytes.length + 1), ?_,
        ?_⟩
      · rw [← List.drop_eq_getElem_cons hlt, List.take_append_drop]
      · rw [List.length_take]
        omega
    have hwrite : poke o.buffer o.bufferPtr a.bytes = some (p ++ (a.bytes ++ x :: post)) := by
      rw [hfree, h.ptr]
      exact poke_append p old a.bytes _ rfl hold
    have hnul : poke (p ++ (a.bytes ++ x :: post)) (o.bufferPtr + a.ret.toNat) [0] =
        some (p ++ a.bytes ++ 0 :: post) := by
      have := poke_append (p ++ a.bytes) [x] [0] post List.length_append rfl
      rw [hval, Int.toNat_natCast, h.ptr]
      simpa using this
    have hlen : (p ++ a.bytes).length < clientOutputBufferSize := by
      rw [List.length_append]
      omega
    have hbuffersize : (p ++ a.bytes ++ 0 :: post).length = clientOutputBufferSize := by
      rw [← hfreelen]
      simp only [List.length_append, List.length_cons]
      omega
    have hzz : 0 ∉ p ++ a.bytes := fun hmem => (List.mem_append.mp hmem).elim h.ends hz
    obtain ⟨o₁, lines, rest, pre, htake, hb₁, hlen₁, hnl, hrz, hp₁, hr₁, hcut⟩ :=
      takeLines_string (o := { o with buffer := p ++ a.bytes ++ 0 :: post }) [] (p ++ a.bytes)
        rfl hzz hlen hlen ⟨h.remembers.size, h.remembers.lastLine, h.remembers.ends,
          h.remembers.count⟩
    -- The pointers tell how much of the bytes is left, whatever line they were in.
    have hleft : toSize (a.ret - ((pre.length : Int) - o.bufferPtr)) = rest.length := by
      simp only [List.length_append, List.length_nil, Nat.zero_add] at hlen₁ hlen
      rw [clientOutputBufferSize] at hlen
      rw [hval, h.ptr, toSize]
      omega
    have hsize₁ : o₁.buffer.length = clientOutputBufferSize := by
      rw [hb₁, ← hbuffersize]
      simp only [List.length_append, List.length_cons, List.length_nil, Nat.zero_add] at hlen₁ ⊢
      omega
    obtain ⟨o₂, hkeep, hholds⟩ := keepRest_holds hb₁ hsize₁ hnl hrz hr₁
    have hcuts : cut newline maxLine p a.bytes =
        (lines ++ (cut newline maxLine [] rest).1, (cut newline maxLine [] rest).2) := by
      have hsplit : cut newline maxLine [] (p ++ a.bytes) = _ := cut_append [] p a.bytes
      rw [cut_short h.plain (by simpa using h.room), hcut] at hsplit
      exact hsplit.symm
    refine ⟨o₂, ?_, ?_⟩
    · rw [ChildOutput.receive, hwrite]
      simp only [access, bind, Except.bind]
      rw [if_pos (by omega), hnul]
      rw [List.length_nil] at htake
      simp only [htake, hp₁, hleft, hkeep, hcuts, Repeat.allNotes_append]
    · rw [hcuts, Repeat.nextAll_append]
      exact hholds

end ChildOutput

/-! ## A call, and many -/

/-- What a `read` gives is the next bytes, at most as many as it was asked for. -/
theorem ReadEnd.read_spec (f : ReadEnd) (max : Nat) :
    f.bytes = (f.read max).bytes ++ (f.read max).file.bytes ∧ (f.read max).bytes.length ≤ max ∧
      ((f.read max).ret = (f.read max).bytes.length ∨
        (f.read max).ret = -1 ∧ (f.read max).bytes = []) := by
  rw [ReadEnd.read]
  cases f.grants 0 with
  | none => exact ⟨rfl, Nat.zero_le max, .inr ⟨rfl, rfl⟩⟩
  | some n =>
      refine ⟨?_, ?_, .inl rfl⟩
      · have htake : f.bytes.take (f.bytes.take (min n max)).length = f.bytes.take (min n max) := by
          rw [List.length_take, ← List.take_eq_take_min]
        exact (List.take_append_drop _ f.bytes).symm.trans (by rw [htake])
      · exact (List.length_take_le _ _).trans (Nat.min_le_right n max)

/-- Of the reads of a call only the last one gets less than it asked for. Each asks for some bytes,
and for no more than fit into the buffer. -/
def EndsShort (reads : List (Nat × Int)) : Prop :=
  ∃ full last, reads = full ++ [last] ∧ (∀ x ∈ full, x.2 = x.1) ∧ last.2 < last.1 ∧
    ∀ x ∈ reads, 1 ≤ x.1 ∧ x.1 < clientOutputBufferSize

/-- **A call ends, and what it did depends on the bytes that it has read.** Every full read takes
some bytes, so there is fuel enough for all of them. -/
theorem ChildOutput.Holds.call {fuel : Nat} {o : ChildOutput} {p : CStr} {r : Repeat}
    {file : ReadEnd} (h : o.Holds p r) (hz : 0 ∉ file.bytes) (hfuel : file.bytes.length < fuel) :
    ∃ res received, loaderReadChildOutput fuel o file = .ok res ∧
      file.bytes = received ++ res.file.bytes ∧
      res.notes = r.allNotes (cut newline maxLine p received).1 ∧
      res.output.Holds (cut newline maxLine p received).2
        (r.nextAll (cut newline maxLine p received).1) ∧
      EndsShort res.reads := by
  have hsucc := maxLine_succ
  induction fuel generalizing o p r file with
  | zero => omega
  | succ fuel ih =>
      obtain ⟨hbytes, hmax, hret⟩ := file.read_spec o.maxRead
      have hmaxRead := h.maxRead
      have hroom := h.room
      rw [hbytes] at hz
      obtain ⟨o₁, hreceive, h₁⟩ :=
        h.receive hret (fun hmem => hz (List.mem_append_left _ hmem)) hmax
      have hasked : 1 ≤ o.maxRead ∧ o.maxRead < clientOutputBufferSize := by
        rw [clientOutputBufferSize] at *
        omega
      rw [loaderReadChildOutput]
      simp only [bind, Except.bind, hreceive]
      by_cases hfull : toSize (file.read o.maxRead).ret = o.maxRead
      · -- A read that failed has not read as much as it was asked for.
        have hval : (file.read o.maxRead).ret = (file.read o.maxRead).bytes.length := by
          rcases hret with hret | ⟨hret, -⟩
          · exact hret
          · rw [hret, toSize] at hfull
            rw [clientOutputBufferSize] at hasked
            omega
        have hall : (file.read o.maxRead).bytes.length = o.maxRead := by
          rw [hval, toSize_natCast] at hfull
          · exact hfull
          · rw [clientOutputBufferSize] at hasked
            omega
        have hless : (file.read o.maxRead).file.bytes.length < fuel := by
          rw [hbytes, List.length_append] at hfuel
          omega
        obtain ⟨res, received, hres, hsplit, hnotes, hholds, full, last, hreads, hf, hl, hasks⟩ :=
          ih h₁ (fun hmem => hz (List.mem_append_right _ hmem)) hless
        rw [if_pos hfull, hres]
        refine ⟨_, (file.read o.maxRead).bytes ++ received, rfl, ?_, ?_, ?_, ?_⟩
        · rw [List.append_assoc, ← hsplit]
          exact hbytes
        · rw [cut_append, Repeat.allNotes_append]
          exact congrArg _ hnotes
        · rw [cut_append, Repeat.nextAll_append]
          exact hholds
        · refine ⟨(o.maxRead, (file.read o.maxRead).ret) :: full, last, ?_, ?_, hl, ?_⟩
          · exact congrArg _ hreads
          · intro x hx
            rcases List.mem_cons.mp hx with rfl | hx
            · rw [hval, hall]
            · exact hf x hx
          · intro x hx
            rcases List.mem_cons.mp hx with rfl | hx
            · exact hasked
            · exact hasks x hx
      · rw [if_neg hfull]
        refine ⟨_, (file.read o.maxRead).bytes, rfl, hbytes, rfl, h₁, [],
          (o.maxRead, (file.read o.maxRead).ret), rfl, ?_, ?_, ?_⟩
        · intro x hx
          cases hx
        · rcases hret with hret | ⟨hret, -⟩
          · rw [hret, toSize_natCast] at hfull
            · rw [hret]
              dsimp only
              omega
            · rw [clientOutputBufferSize] at hasked
              omega
          · rw [hret]
            dsimp only
            omega
        · intro x hx
          rw [List.mem_singleton] at hx
          rw [hx]
          exact hasked

/-- What some calls did, with the reads of each of them. -/
structure OutputReads where
  output : ChildOutput
  file : ReadEnd
  notes : List Note
  calls : List (List (Nat × Int))

/-- So many calls of `loader_read_child_output`, with the fuel for all of the bytes. -/
def loaderReadChildOutputs (o : ChildOutput) (file : ReadEnd) :
    Nat → Except MemoryFault OutputReads
  | 0 => .ok ⟨o, file, [], []⟩
  | n + 1 => do
    let before ← loaderReadChildOutputs o file n
    let res ← loaderReadChildOutput (before.file.bytes.length + 1) before.output before.file
    .ok ⟨res.output, res.file, before.notes ++ res.notes, before.calls ++ [res.reads]⟩

theorem ChildOutput.Holds.calls {o : ChildOutput} {p : CStr} {r : Repeat} (h : o.Holds p r)
    (file : ReadEnd) (hz : 0 ∉ file.bytes) (n : Nat) :
    ∃ res received, loaderReadChildOutputs o file n = .ok res ∧
      file.bytes = received ++ res.file.bytes ∧
      res.notes = r.allNotes (cut newline maxLine p received).1 ∧
      res.output.Holds (cut newline maxLine p received).2
        (r.nextAll (cut newline maxLine p received).1) ∧
      ∀ reads ∈ res.calls, EndsShort reads := by
  induction n with
  | zero => exact ⟨_, [], rfl, rfl, rfl, h, fun _ hmem => nomatch hmem⟩
  | succ n ih =>
      obtain ⟨before, received, hbefore, hbytes, hnotes, hholds, hshort⟩ := ih
      rw [hbytes] at hz
      obtain ⟨res, more, hres, hmore, hnotes', hholds', hshort'⟩ :=
        hholds.call (fun hmem => hz (List.mem_append_right _ hmem)) (Nat.lt_succ_self _)
      refine ⟨⟨res.output, res.file, before.notes ++ res.notes, before.calls ++ [res.reads]⟩,
        received ++ more, ?_, ?_, ?_, ?_, ?_⟩
      · rw [loaderReadChildOutputs, hbefore]
        simp only [bind, Except.bind, hres]
      · rw [List.append_assoc, ← hmore]
        exact hbytes
      · rw [cut_append, Repeat.allNotes_append, ← hnotes, ← hnotes']
      · rw [cut_append, Repeat.nextAll_append]
        exact hholds'
      · intro reads hreads
        rcases List.mem_append.mp hreads with hreads | hreads
        · exact hshort reads hreads
        · rw [List.mem_singleton.mp hreads]
          exact hshort'

/-- **What is logged about an output depends on its bytes only.** However `read` hands them out and
in however many calls, the bytes that have been read are cut into the same pieces, and every piece
is logged unless it repeats the last line, which is counted. What is not in a piece stands in the
buffer, with room behind it. -/
theorem child_output_by_bytes {bytes : List UInt8} (hz : 0 ∉ bytes) (grants : Nat → Option Nat)
    (n : Nat) :
    ∃ res received pieces rest, loaderReadChildOutputs .new ⟨bytes, grants⟩ n = .ok res ∧
      bytes = received ++ res.file.bytes ∧
      cut newline maxLine [] received = (pieces, rest) ∧
      res.notes = Repeat.none.allNotes pieces ∧
      res.output.lastLineRepeatCount = (Repeat.none.nextAll pieces).count ∧
      res.output.buffer.take res.output.bufferPtr = rest ∧
      pieces.flatMap Piece.values ++ rest = received.filter (· ≠ newline) ∧
      res.notes.filterMap Note.piece? = Repeat.none.fresh pieces ∧
      res.output.buffer.length = clientOutputBufferSize ∧
      res.output.bufferPtr + 1 < clientOutputBufferSize ∧
      ∀ reads ∈ res.calls, EndsShort reads := by
  obtain ⟨res, received, hres, hbytes, hnotes, hholds, hshort⟩ :=
    ChildOutput.holds_new.calls ⟨bytes, grants⟩ hz n
  refine ⟨res, received, _, _, hres, hbytes, rfl, hnotes, hholds.remembers.count, ?_,
    cut_values [] received, ?_, hholds.size, ?_, hshort⟩
  · obtain ⟨post, hpost⟩ := hholds.bytes
    rw [hholds.ptr, hpost, List.take_left]
  · rw [hnotes, Repeat.allNotes_pieces]
  · rw [hholds.ptr, ← maxLine_succ]
    exact Nat.succ_lt_succ hholds.room

/-- Three bytes come one by one, and the second read would have blocked. -/
theorem child_output_by_bytes_two :
    0 ∉ cstr "ab\n" ∧ ∃ res received pieces rest,
      loaderReadChildOutputs .new ⟨cstr "ab\n", fun i => if i = 1 then none else some 1⟩ 4 =
        .ok res ∧
      cstr "ab\n" = received ++ res.file.bytes ∧
      cut newline maxLine [] received = (pieces, rest) ∧
      res.notes = Repeat.none.allNotes pieces := by
  have hz : 0 ∉ cstr "ab\n" := by decide +kernel
  obtain ⟨res, received, pieces, rest, hres, hbytes, hcut, hnotes, -⟩ :=
    child_output_by_bytes hz (fun i => if i = 1 then none else some 1) 4
  exact ⟨hz, res, received, pieces, rest, hres, hbytes, hcut, hnotes⟩

/-- The bytes that have been logged, and those that wait in the buffer. -/
def OutputRead.accounted (res : OutputRead) : List UInt8 :=
  (res.notes.filterMap Note.piece?).flatMap Piece.values ++
    res.output.buffer.take res.output.bufferPtr

/-- A line that is written twice is logged once: the second `a` is neither in the log nor in the
buffer. -/
theorem second_line_not_logged :
    (loaderReadChildOutput 5 .new ⟨cstr "a\na\n", fun _ => some 4⟩).toOption.map
        OutputRead.accounted = some (cstr "a") ∧
      (cstr "a\na\n").filter (· ≠ newline) = cstr "aa" ∧ cstr "a" ≠ cstr "aa" := by
  decide +kernel

/-! ## All the children -/

/-- The state of an output that bytes without a NUL come to. -/
def ChildOutput.Sound (o : ChildOutput) (file : ReadEnd) : Prop :=
  0 ∉ file.bytes ∧ ∃ p r, o.Holds p r

theorem ChildOutput.Sound.call {o : ChildOutput} {file : ReadEnd} (h : o.Sound file) :
    ∃ res, loaderReadChildOutput (file.bytes.length + 1) o file = .ok res ∧
      res.output.Sound res.file := by
  obtain ⟨hz, p, r, hholds⟩ := h
  obtain ⟨res, received, hres, hbytes, -, hholds', -⟩ := hholds.call hz (Nat.lt_succ_self _)
  rw [hbytes] at hz
  exact ⟨res, hres, fun hmem => hz (List.mem_append_right _ hmem), _, _, hholds'⟩

def LoaderChild.Sound (c : LoaderChild) : Prop :=
  c.stdout.Sound c.stdoutFile ∧ c.stderr.Sound c.stderrFile

theorem LoaderChild.Sound.read {c : LoaderChild} (h : c.Sound) :
    ∃ c' logged, c.read = .ok (c', logged) ∧ c'.Sound := by
  rw [LoaderChild.read]
  split
  · obtain ⟨out, hout, hsound⟩ := h.1.call
    obtain ⟨err, herr, hsound'⟩ := h.2.call
    simp only [bind, Except.bind, hout, herr]
    exact ⟨_, _, rfl, hsound, hsound'⟩
  · exact ⟨c, [], rfl, h⟩

/-- **A round over all the children ends without a fault**, and the next one can follow. -/
theorem loaderReadChildsOutput_sound {cs : List LoaderChild} (h : ∀ c ∈ cs, c.Sound) :
    ∃ cs' logged, loaderReadChildsOutput cs = .ok (cs', logged) ∧ ∀ c ∈ cs', c.Sound := by
  induction cs with
  | nil => exact ⟨[], [], rfl, h⟩
  | cons c cs ih =>
      obtain ⟨c', logged, hc, hsound⟩ := (h c List.mem_cons_self).read
      obtain ⟨cs', more, hcs, hall⟩ := ih fun x hx => h x (List.mem_cons_of_mem _ hx)
      refine ⟨c' :: cs', logged ++ more, ?_, ?_⟩
      · rw [loaderReadChildsOutput]
        simp only [bind, Except.bind, hc, hcs]
      · intro x hx
        rcases List.mem_cons.mp hx with rfl | hx
        · exact hsound
        · exact hall x hx

end Lash
