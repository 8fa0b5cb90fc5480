import NetworkExamples.Pre.Utils

/-!
# `SplitString` of the peer-to-peer framework

The function of `node_utils.cpp`: it looks for the delimiter, takes what stands before it out of the
string, and goes on until there is none. It works on its argument itself, of which the last piece is
left in the end.

* `SplitString`: the pieces, and what is left of the argument.
* `splitString_char`: the pieces for a delimiter of one character.
-/

namespace PeerToPeer

open Pre (Text)

/-- `data.find(delimiter)`; `none` is the code's `npos`. -/
def find (delimiter : Text) : Text → Option ℕ
  | [] => if delimiter.isPrefixOf [] then some 0 else none
  | c :: data => if delimiter.isPrefixOf (c :: data) then some 0 else (find delimiter data).map (· + 1)

/-- The loop, for at most `fuel` turns; `none`: it is still going on. -/
def splitLoop (delimiter : Text) : ℕ → List Text → Text → Option (List Text × Text)
  | 0, _, _ => none
  | fuel + 1, v, data =>
    match find delimiter data with
    | none => some (v ++ [data], data)
    | some pos =>
      splitLoop delimiter fuel (v ++ [data.take pos]) (data.drop (pos + delimiter.length))

/-- The pieces, and what is left of `data`. Each turn takes a delimiter away, so that there are no
more turns than characters; `none`: the delimiter is empty. -/
def SplitString (data delimiter : Text) : Option (List Text × Text) :=
  splitLoop delimiter (data.length + 1) [] data

/-- The piece before the first delimiter. -/
def firstPiece (data : Text) (c : Char) : Text := data.takeWhile (· != c)

/-- The piece after the last delimiter. -/
def lastPiece (data : Text) (c : Char) : Text :=
  (data.splitOn c).getLast (List.splitOn_ne_nil c data)

variable {c : Char} {data : Text}

theorem find_char (h : c ∉ data) : find [c] data = none := by
  induction data with
  | nil => rfl
  | cons x data ih =>
    have hx : c ≠ x := List.ne_of_not_mem_cons h
    have hdata : c ∉ data := List.not_mem_of_not_mem_cons h
    unfold find
    simp [hx, ih hdata]

theorem find_char_append (h : c ∉ data) (rest : Text) :
    find [c] (data ++ c :: rest) = some data.length := by
  induction data with
  | nil => simp [find]
  | cons x data ih =>
    have hx : c ≠ x := List.ne_of_not_mem_cons h
    have hdata : c ∉ data := List.not_mem_of_not_mem_cons h
    rw [List.cons_append, find]
    simp [hx, ih hdata]

theorem firstPiece_append (h : c ∉ data) (rest : Text) :
    firstPiece (data ++ rest) c = data ++ firstPiece rest c := by
  apply List.takeWhile_append_of_pos
  intro x hx
  exact bne_iff_ne.mpr fun hxc => h (hxc ▸ hx)

theorem firstPiece_append_cons (h : c ∉ data) (rest : Text) :
    firstPiece (data ++ c :: rest) c = data := by
  rw [firstPiece_append h]
  simp [firstPiece]

theorem firstPiece_of_notMem (h : c ∉ data) : firstPiece data c = data := by
  simpa [firstPiece] using firstPiece_append h []

theorem splitOn_zero (data : Text) (c : Char) : (data.splitOn c)[0]? = some (firstPiece data c) := by
  by_cases hc : c ∈ data
  · obtain ⟨token, rest, rfl, htoken⟩ := List.eq_append_cons_of_mem hc
    rw [List.splitOn_append_cons_self_of_not_mem htoken, firstPiece_append_cons htoken]
    rfl
  · rw [List.splitOn_eq_singleton hc, firstPiece_of_notMem hc]
    rfl

theorem lastPiece_of_notMem (h : c ∉ data) : lastPiece data c = data := by
  unfold lastPiece
  simp [List.splitOn_eq_singleton h]

theorem lastPiece_append (h : c ∉ data) (rest : Text) :
    lastPiece (data ++ c :: rest) c = lastPiece rest c := by
  unfold lastPiece
  simp [List.splitOn_append_cons_self_of_not_mem h, List.getLast_cons]

theorem notMem_lastPiece (data : Text) (c : Char) : c ∉ lastPiece data c := by
  induction hn : data.length using Nat.strongRecOn generalizing data with
  | _ n ih =>
    by_cases h : c ∈ data
    · obtain ⟨token, rest, rfl, htoken⟩ := List.eq_append_cons_of_mem h
      rw [lastPiece_append htoken]
      exact ih rest.length (by simp at hn; omega) rest rfl
    · rwa [lastPiece_of_notMem h]

theorem splitLoop_char {fuel : ℕ} (v : List Text) (h : data.length < fuel) :
    splitLoop [c] fuel v data = some (v ++ data.splitOn c, lastPiece data c) := by
  induction fuel generalizing v data with
  | zero => omega
  | succ fuel ih =>
    unfold splitLoop
    by_cases hc : c ∈ data
    · obtain ⟨token, rest, rfl, htoken⟩ := List.eq_append_cons_of_mem hc
      rw [find_char_append htoken]
      have hlen : rest.length < fuel := by
        simp only [List.length_append, List.length_cons] at h
        omega
      have hdrop : (token ++ c :: rest).drop (token.length + [c].length) = rest := by simp
      have htake : (token ++ c :: rest).take token.length = token := List.take_left
      dsimp only
      rw [hdrop, htake, ih _ hlen, lastPiece_append htoken,
        List.splitOn_append_cons_self_of_not_mem htoken, List.append_assoc]
      rfl
    · rw [find_char hc, lastPiece_of_notMem hc, List.splitOn_eq_singleton hc]

/-- **A delimiter of one character**: the pieces between its occurrences. -/
theorem splitString_char (data : Text) (c : Char) :
    SplitString data [c] = some (data.splitOn c, lastPiece data c) :=
  splitLoop_char [] (Nat.lt_succ_self _)

end PeerToPeer
