import Exodus.Library.FloatArith

/-!
# `api.rs`: the choice among the chat replies

The similarity of two replies is computed over `FloatArith K`; the program runs it on
`Float`.  The Unicode tables of the standard library are a parameter.
-/

set_option autoImplicit false

namespace Exodus.Model

open Exodus.Library

/-- `char::is_alphanumeric` and `char::is_whitespace` -/
class UnicodeTables where
  isAlphanumeric : Char → Bool
  isWhitespace : Char → Bool

variable [UnicodeTables]

/-- `s.trim().is_empty()` -/
def isBlank (s : String) : Bool := s.toList.all UnicodeTables.isWhitespace

def normalizedChars (s : String) : List Char :=
  (s.toList.filter UnicodeTables.isAlphanumeric).map Char.toLower

omit [UnicodeTables] in
/-- The pairs of neighbours. -/
def bigrams (chars : List Char) : Finset (Char × Char) := (chars.zip chars.tail).toFinset

section

variable (K : Type) [FloatArith K]

/-- Dice coefficient on character bigrams, 1 for identical text. -/
def diceSimilarityIn (a b : String) : K :=
  if a = b then FloatArith.literal 1
  else
    let ca := normalizedChars a
    let cb := normalizedChars b
    if ca.length < 2 ∨ cb.length < 2 then
      if ca = cb then FloatArith.literal 1 else FloatArith.literal 0
    else
      let ga := bigrams ca
      let gb := bigrams cb
      let common : K := FloatArith.ofInt (ga ∩ gb).card
      FloatArith.literal 2 * common / (FloatArith.ofInt ga.card + FloatArith.ofInt gb.card)

/-- The replies that are not blank, with their nodes; the local one first. -/
def replyCandidates (localReply : Option String) (peers : List (String × String)) :
    List (String × String) :=
  (match localReply with
    | some l => if isBlank l then [] else [("local", l)]
    | none => []) ++ peers.filter fun p => !isBlank p.2

/-- The table of similarities; the program fills it before the scan. -/
def sims (candidates : List (String × String)) (i j : ℕ) : K :=
  if i = j then FloatArith.literal 1
  else diceSimilarityIn K (candidates.getD i ("", "")).2 (candidates.getD j ("", "")).2

/-- The candidate itself and the others that are similar to it. -/
def votesFor (candidates : List (String × String)) (i : ℕ) : ℕ :=
  1 + (List.range candidates.length).countP fun j =>
    decide (j ≠ i) && FloatArith.le (FloatArith.literal (1 / 2)) (sims K candidates i j)

omit [UnicodeTables] in
/-- The length of a reply in characters. -/
def replyLength (candidates : List (String × String)) (i : ℕ) : ℕ :=
  (candidates.getD i ("", "")).2.length

/-- One candidate of the scan; the best one so far is kept with its votes and length. -/
def considerReply (candidates : List (String × String)) (best : ℕ × ℕ × ℕ) (i : ℕ) : ℕ × ℕ × ℕ :=
  let votes := votesFor K candidates i
  let len := replyLength candidates i
  if best.2.1 < votes ∨ votes = best.2.1 ∧ best.2.2 < len then (i, votes, len) else best

/-- The completion with the most support: its node, its text and its votes. -/
def pickAgreedReplyIn (localReply : Option String) (peers : List (String × String)) :
    String × String × ℕ :=
  let candidates := replyCandidates localReply peers
  match candidates with
  | [] => ("", "", 0)
  | [only] => (only.1, only.2, 1)
  | _ =>
    let best := (List.range candidates.length).foldl (considerReply K candidates) (0, 0, 0)
    let chosen := candidates.getD best.1 ("", "")
    (chosen.1, chosen.2, best.2.1)

end

/-- `dice_similarity` as the program runs it. -/
def diceSimilarity (a b : String) : Float := diceSimilarityIn Float a b

/-- `pick_agreed_reply` as the program runs it. -/
def pickAgreedReply (localReply : Option String) (peers : List (String × String)) :
    String × String × ℕ :=
  pickAgreedReplyIn Float localReply peers

end Exodus.Model
