import Mathlib

/-!
# One buffer handed back and forth by two semaphores

The writer waits for the buffer to be empty, puts the next chunk of the content into it and posts
it full.  The reader waits for it to be full, takes the chunk out and posts it empty.  Between
them they hold one token: a semaphore that is up, or the side that is at the buffer.
-/

namespace Handoff

variable {α : Type*} {content buf buf' : List α} {len len' empty full n : ℕ}

/-- Where the reader is, with how much of the content it has taken: off the buffer, at it, or at
it with the chunk taken. -/
inductive Reader
  | out (n : ℕ)
  | reading (n : ℕ)
  | read (n : ℕ)

/-- Where the writer is, with how much of the content it has posted: off the buffer, at it, or at
it with the next chunk in place. -/
inductive Writer
  | out (n : ℕ)
  | writing (n : ℕ)
  | written (n : ℕ)

/-- The first `len` items of the buffer are what follows the first `n` items of the content. -/
structure Chunk (content : List α) (n len : ℕ) (buf : List α) : Prop where
  pos : 0 < len
  fits : n + len ≤ content.length
  eq : buf.take len = (content.drop n).take len

theorem Chunk.append (h : Chunk content n len buf) :
    content.take n ++ buf.take len = content.take (n + len) := by
  rw [h.eq, List.take_add]

theorem Chunk.length_take (h : Chunk content n len buf) : (buf.take len).length = len := by
  have := h.fits
  rw [h.eq, List.length_take, List.length_drop]
  omega

/-- The chunk copied to the start of another buffer. -/
theorem Chunk.copy (h : Chunk content n len buf) (rest : List α) :
    Chunk content n len (buf.take len ++ rest) :=
  ⟨h.pos, h.fits, by rw [List.take_left' h.length_take, h.eq]⟩

/-- The reachable states of the two semaphores and the two sides. -/
inductive Token (content : List α) (len : ℕ) (buf : List α) : ℕ → ℕ → Reader → Writer → Prop
  | empty {n : ℕ} (hn : n ≤ content.length) : Token content len buf 1 0 (.out n) (.out n)
  | writing {n : ℕ} (hn : n < content.length) : Token content len buf 0 0 (.out n) (.writing n)
  | written {n : ℕ} (h : Chunk content n len buf) : Token content len buf 0 0 (.out n) (.written n)
  | full {n : ℕ} (h : Chunk content n len buf) : Token content len buf 0 1 (.out n) (.out (n + len))
  | reading {n : ℕ} (h : Chunk content n len buf) :
      Token content len buf 0 0 (.reading n) (.out (n + len))
  | read {n : ℕ} (hn : n ≤ content.length) : Token content len buf 0 0 (.read n) (.out n)

variable {r : Reader} {w : Writer}

namespace Token

/-- The writer finds the buffer empty. -/
theorem takeEmpty (h : Token content len buf (empty + 1) full r (.out n))
    (hn : n < content.length) : Token content len buf empty full r (.writing n) := by
  cases h with
  | empty => exact .writing hn

/-- The writer at the buffer may change it at will. -/
theorem write (h : Token content len buf empty full r (.writing n)) :
    Token content len' buf' empty full r (.writing n) := by
  cases h with
  | writing hn => exact .writing hn

theorem reader_of_writing (h : Token content len buf empty full r (.writing n)) : r = .out n := by
  cases h with
  | writing => rfl

theorem empty_of_writing (h : Token content len buf empty full r (.writing n)) : empty = 0 := by
  cases h with
  | writing => rfl

theorem writing_lt (h : Token content len buf empty full r (.writing n)) :
    n < content.length := by
  cases h with
  | writing hn => exact hn

theorem fill (h : Token content len buf empty full r (.writing n))
    (hchunk : Chunk content n len' buf') :
    Token content len' buf' empty full r (.written n) := by
  cases h with
  | writing => exact .written hchunk

theorem postFull (h : Token content len buf empty full r (.written n)) :
    Token content len buf empty (full + 1) r (.out (n + len)) := by
  cases h with
  | written hchunk => exact .full hchunk

/-- The reader finds the buffer full. -/
theorem takeFull (h : Token content len buf empty (full + 1) (.out n) w) :
    Token content len buf empty full (.reading n) w := by
  cases h with
  | full hchunk => exact .reading hchunk

theorem chunk (h : Token content len buf empty full (.reading n) w) :
    Chunk content n len buf := by
  cases h with
  | reading hchunk => exact hchunk

theorem chunk_written (h : Token content len buf empty full r (.written n)) :
    Chunk content n len buf := by
  cases h with
  | written hchunk => exact hchunk

theorem take (h : Token content len buf empty full (.reading n) w) :
    Token content len buf empty full (.read (n + len)) w := by
  cases h with
  | reading hchunk => exact .read hchunk.fits

theorem postEmpty (h : Token content len buf empty full (.read n) w) :
    Token content len buf (empty + 1) full (.out n) w := by
  cases h with
  | read hn => exact .empty hn

theorem reader_le (h : Token content len buf empty full (.out n) w) : n ≤ content.length := by
  cases h with
  | empty hn => exact hn
  | writing hn => exact hn.le
  | written hchunk => exact (Nat.le_add_right _ _).trans hchunk.fits
  | full hchunk => exact (Nat.le_add_right _ _).trans hchunk.fits

theorem read_le (h : Token content len buf empty full (.read n) w) : n ≤ content.length := by
  cases h with
  | read hn => exact hn

/-- A writer that finds the buffer taken has a reader that can go on. -/
theorem reader_of_taken (h : Token content len buf 0 full r (.out n)) :
    (∃ m, r = .out m ∧ 0 < full) ∨ (∃ m, r = .reading m) ∨ ∃ m, r = .read m := by
  cases h with
  | full => exact .inl ⟨_, rfl, Nat.one_pos⟩
  | reading => exact .inr (.inl ⟨_, rfl⟩)
  | read => exact .inr (.inr ⟨_, rfl⟩)

/-- The reader that is to find the buffer full has not taken all of the content. -/
theorem lt_of_taken {m : ℕ} (h : Token content len buf 0 full (.out n) (.out m)) :
    n < content.length := by
  cases h with
  | full hchunk =>
    have := hchunk.pos
    have := hchunk.fits
    omega

/-- A reader that is behind a writer off the buffer finds it full. -/
theorem full_of_lt {m : ℕ} (h : Token content len buf empty full (.out n) (.out m)) (hlt : n < m) :
    0 < full := by
  cases h with
  | empty => exact absurd hlt (lt_irrefl _)
  | full => exact Nat.one_pos

/-- A reader that has taken all of the content has nobody at the buffer. -/
theorem writer_of_end (h : Token content len buf empty full (.out n) w)
    (hn : content.length ≤ n) : w = .out content.length := by
  cases h with
  | empty h => rw [le_antisymm h hn]
  | writing h => omega
  | written hchunk =>
    have := hchunk.pos
    have := hchunk.fits
    omega
  | full hchunk =>
    have := hchunk.pos
    have := hchunk.fits
    omega

/-- A reader at the last chunk has nobody at the buffer either. -/
theorem writer_of_last (h : Token content len buf empty full (.reading n) w)
    (hn : content.length ≤ n + len) : w = .out content.length := by
  cases h with
  | reading hchunk => rw [le_antisymm hchunk.fits hn]

end Token

end Handoff
