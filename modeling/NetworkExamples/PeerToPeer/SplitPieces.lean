import NetworkExamples.PeerToPeer.SplitString
import NetworkExamples.Strings.Cuts

/-!
# The pieces of `SplitString`

The function stands in two files. The one of `node_utils.cpp` takes its string by reference and
leaves the last piece in it; the one of `utils.cpp` works on a copy. For a delimiter of any length
(not 0) both return the pieces between the leftmost delimiters.

* `find_eq_some`, `find_eq_none`: `find` is the search for the first occurrence.
* `splitString_inverse`: joining the pieces gives the string back.
-/

namespace Pre.Utils

/-- `SplitString` of `utils.cpp`: the same loop on a copy of the string. -/
def SplitString (data delimiter : Text) : Option (List Text) :=
  (PeerToPeer.splitLoop delimiter (data.length + 1) [] data).map (·.1)

end Pre.Utils

namespace PeerToPeer

open Pre (Text)
open Cuts

variable {data delimiter : Text}

/-- The delimiters of the routing code are single characters. -/
theorem utils_splitString_char (data : Text) (c : Char) :
    Pre.Utils.SplitString data [c] = some (Pre.SplitString data c) := by
  unfold Pre.Utils.SplitString
  rw [splitLoop_char [] (Nat.lt_succ_self _)]
  rfl

/-- `find` answers the first occurrence. -/
theorem find_eq_some {pos : ℕ} (h : find delimiter data = some pos) :
    OccursAt delimiter data pos ∧ ∀ i < pos, ¬ OccursAt delimiter data i := by
  induction data generalizing pos with
  | nil =>
    unfold find at h
    split at h
    · next hp =>
      cases h
      exact ⟨List.isPrefixOf_iff_prefix.mp hp, fun i hi => by omega⟩
    · cases h
  | cons c data ih =>
    unfold find at h
    split at h
    · next hp =>
      cases h
      exact ⟨List.isPrefixOf_iff_prefix.mp hp, fun i hi => by omega⟩
    · next hp =>
      obtain ⟨n, hn, rfl⟩ := Option.map_eq_some_iff.mp h
      obtain ⟨hocc, hfirst⟩ := ih hn
      refine ⟨hocc, fun i hi => ?_⟩
      cases i with
      | zero => exact fun h0 => hp (List.isPrefixOf_iff_prefix.mpr h0)
      | succ i => exact hfirst i (by omega)

theorem find_eq_none (hd : delimiter ≠ []) (h : find delimiter data = none) (i : ℕ) :
    ¬ OccursAt delimiter data i := by
  induction data generalizing i with
  | nil => exact fun hi => hd (List.prefix_nil.mp (by simpa [OccursAt] using hi))
  | cons c data ih =>
    unfold find at h
    split at h
    · cases h
    · next hp =>
      cases i with
      | zero => exact fun h0 => hp (List.isPrefixOf_iff_prefix.mpr h0)
      | succ i => exact ih (Option.map_eq_none_iff.mp h) i

/-- With more turns than characters the loop ends: each turn takes at least one away. -/
theorem splitLoop_isSplit (hd : delimiter ≠ []) {fuel : ℕ} (v : List Text)
    (h : data.length < fuel) : ∃ pieces last,
      splitLoop delimiter fuel v data = some (v ++ pieces, last) ∧
        IsSplit delimiter data pieces last := by
  induction fuel generalizing v data with
  | zero => omega
  | succ fuel ih =>
    unfold splitLoop
    cases hfind : find delimiter data with
    | none => exact ⟨[data], data, rfl, .one (find_eq_none hd hfind)⟩
    | some pos =>
      obtain ⟨hocc, hfirst⟩ := find_eq_some hfind
      have hlen : (data.drop (pos + delimiter.length)).length < fuel := by
        have hpos := List.length_pos_iff.mpr hd
        rw [List.length_drop]
        have hle := hocc.length_le
        rw [List.length_drop] at hle
        omega
      obtain ⟨pieces, last, hloop, hsplit⟩ := ih (v ++ [data.take pos]) hlen
      refine ⟨data.take pos :: pieces, last, ?_, hsplit.cons hd hocc hfirst⟩
      dsimp only
      rw [hloop, List.append_assoc]
      rfl

/-- **`SplitString` is the inverse of joining**, for every delimiter but the empty one: it ends, its
pieces joined are the string, the cuts are the leftmost occurrences that do not overlap, and the last
piece, which is left in the argument, has none. The version of `utils.cpp` returns the same pieces. -/
theorem splitString_inverse (hd : delimiter ≠ []) (data : Text) : ∃ pieces last,
    SplitString data delimiter = some (pieces, last) ∧
      Pre.Utils.SplitString data delimiter = some pieces ∧
      delimiter.intercalate pieces = data ∧
      (∀ cs, Leftmost delimiter data cs ↔ cs = cuts delimiter pieces) ∧
      pieces.getLast? = some last ∧ ¬ delimiter <:+: last := by
  obtain ⟨pieces, last, hloop, hsplit⟩ := splitLoop_isSplit hd [] (Nat.lt_succ_self data.length)
  refine ⟨pieces, last, hloop, ?_, hsplit.joins, fun cs => ⟨fun h => ?_, ?_⟩, hsplit.getLast,
    hsplit.clean⟩
  · unfold Pre.Utils.SplitString
    rw [hloop]
    rfl
  · exact h.unique hd hsplit.leftmost
  · rintro rfl
    exact hsplit.leftmost

/-- A delimiter that overlaps itself. -/
theorem splitString_inverse_aa : "aa".toList ≠ [] ∧
    ∃ pieces last, SplitString "xaaay".toList "aa".toList = some (pieces, last) ∧
      pieces = ["x".toList, "ay".toList] := by
  have hne : "aa".toList ≠ [] := by decide
  obtain ⟨pieces, last, h, -⟩ := splitString_inverse hne "xaaay".toList
  have hrun : SplitString "xaaay".toList "aa".toList =
      some (["x".toList, "ay".toList], "ay".toList) := by decide
  refine ⟨hne, pieces, last, h, ?_⟩
  rw [hrun] at h
  cases h
  rfl

end PeerToPeer
