import FileServices.Gfclient

/-!
# What a first packet says

The headers the client accepts, as a grammar on the packet's bytes: the first line is `GETFILE`,
a word for the status and perhaps a numeral, with white space, signs and trailing bytes the
protocol does not have.
-/

namespace FileServices

open CString

/-- Both marks of a header stand in the packet's C string. -/
def Marked (f : Bytes) : Prop :=
  ascii "GETFILE" <:+: cstr (fillBuffer f) ∧ crlf2 <:+: cstr (fillBuffer f)

/-- The first line: the run after any line ends, up to a line end or the terminator. -/
def FirstLine (f line : Bytes) : Prop :=
  ∃ skip d rest, fillBuffer f = skip ++ line ++ d :: rest ∧ (∀ b ∈ skip, b ∈ crlf2)
    ∧ line ≠ [] ∧ (∀ b ∈ line, b ∉ crlf2 ∧ b ≠ 0) ∧ (d ∈ crlf2 ∨ d = 0)

/-- A line that gives the status `word`, and what follows it. -/
def StatusLine (line word tail : Bytes) : Prop :=
  ∃ rest, line = ascii "GETFILE" ++ rest ∧ Word rest word tail

/-- How the client has to take a first packet. -/
inductive Says (f : Bytes) : Header → Prop
  | unmarked : ¬ Marked f → 0 ∈ fillBuffer f → Says f (.reply .invalid)
  | noStatus {line : Bytes} : Marked f → FirstLine f line →
      (∀ word tail, ¬ StatusLine line word tail) → Says f (.reply .invalid)
  | bare {line word tail : Bytes} : Marked f → FirstLine f line → StatusLine line word tail →
      word.length < headerStatusSize → (∀ n rest, ¬ Numeral tail n rest) →
      Says f (.reply (replyStatus word))
  | misplaced {line word tail rest : Bytes} {n : ℕ} : Marked f → FirstLine f line →
      StatusLine line word tail → word.length < headerStatusSize → Numeral tail n rest →
      word ≠ ascii "OK" → Says f (.reply .invalid)
  | ok {line tail rest : Bytes} {n : ℕ} : Marked f → FirstLine f line →
      StatusLine line (ascii "OK") tail → Numeral tail n rest → Says f (.ok n)

end FileServices
