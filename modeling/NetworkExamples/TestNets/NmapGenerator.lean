import NetworkExamples.PeerToPeer.AddNodes
import NetworkExamples.TestNets.Parties

/-!
# The generator of the network maps

`nmap_generator.py` writes a map in which every party has all others as its peers. A party that loads it
(`AddNodes`) gets exactly these, whatever the order.

* `nmap_generator_eq`: what the generator writes is a map.
* `Loads.nodup_mem`: a party that has loaded the map broadcasts to every other party, once.
-/

namespace TestNets

open PeerToPeer
open Pre (Text isspace)

/-- The map with `NUM_PARTIES` lines. -/
def nmap_generator (NUM_PARTIES : ℕ) : Text :=
  (List.range NUM_PARTIES).flatMap fun i =>
    let container := ((List.range NUM_PARTIES).filter (· ≠ i)).map fun v =>
      if v = 0 then ("Server@localhost:" ++ toString (50050 + v + 1)).toList
      else ("Client" ++ toString v ++ "@localhost:" ++ toString (50050 + v + 1)).toList
    let fmt := [','].intercalate container
    let linePrefix := if i ≠ 0 then ("Client" ++ toString i ++ "-").toList else "Server-".toList
    let ln := linePrefix ++ fmt
    ln ++ ['\n']

/-- The name and the address of a party in the map. -/
def mapEntry (v : ℕ) : Text × Text :=
  ((nodeName v).toList, ("localhost:" ++ toString (50050 + v + 1)).toList)

/-- The peers of the party `i`. -/
def mapPeers (N i : ℕ) : List (Text × Text) := ((List.range N).filter (· ≠ i)).map mapEntry

def nmap (N : ℕ) : List MapLine := (List.range N).map fun i => ⟨(nodeName i).toList, mapPeers N i⟩

/-- The party `i` broadcasts to the parties `L`: they are the entries of `connectedAddresses`, in the
order of the map. -/
def Loads (N i : ℕ) (L : List ℕ) : Prop :=
  ∃ fuel node, AddNodes fuel (nodeName i).toList (nmap_generator N) .default = some node ∧
    L.map (fun v => (nodeName v).toList) = node.connectedAddresses.keys

variable {N i v : ℕ} {L : List ℕ}

/-! ## What the generator writes -/

theorem container_eq (N i : ℕ) : (((List.range N).filter (· ≠ i)).map fun v =>
      if v = 0 then ("Server@localhost:" ++ toString (50050 + v + 1)).toList
      else ("Client" ++ toString v ++ "@localhost:" ++ toString (50050 + v + 1)).toList) =
    (mapPeers N i).map peerData := by
  rw [mapPeers, List.map_map]
  apply List.map_congr_left
  intro v _
  simp only [Function.comp_apply, peerData, mapEntry, nodeName]
  split
  · simp
  · simp

theorem linePrefix_eq (i : ℕ) : (if i ≠ 0 then ("Client" ++ toString i ++ "-").toList
    else "Server-".toList) = (nodeName i).toList ++ ['-'] := by
  unfold nodeName
  by_cases hi : i = 0
  · simp [hi]
  · simp [hi]

theorem nmap_generator_eq (N : ℕ) : nmap_generator N = renderMap (nmap N) := by
  unfold nmap_generator renderMap nmap
  rw [List.flatMap_map]
  apply List.flatMap_congr
  intro i _
  simp only [container_eq, linePrefix_eq, MapLine.data, List.append_assoc, List.cons_append,
    List.nil_append]

/-! ## The lines of the map -/

theorem toString_digits (k : ℕ) : ∀ c ∈ (toString k).toList, c.isDigit = true := by
  intro c hc
  have hrepr : (toString k).toList = Nat.toDigits 10 k := by
    show (Nat.repr k).toList = _
    simp [Nat.repr]
  rw [hrepr] at hc
  exact Nat.isDigit_of_mem_toDigits (by decide) (by decide) hc

/-- A digit is none of the characters that a map is cut at. -/
theorem isspace_digit {c : Char} (h : c.isDigit = true) :
    isspace c = false ∧ c ≠ '-' ∧ c ≠ ',' ∧ c ≠ '@' := by
  have hne : ∀ d : Char, d.isDigit = false → c ≠ d := by
    rintro d hd rfl
    rw [h] at hd
    cases hd
  refine ⟨?_, hne _ (by decide), hne _ (by decide), hne _ (by decide)⟩
  unfold isspace
  simp [hne _ (show Char.isDigit ' ' = false by decide), hne _ (show Char.isDigit '\t' = false by decide),
    hne _ (show Char.isDigit '\n' = false by decide), hne _ (show Char.isDigit '\r' = false by decide),
    hne _ (show Char.isDigit (Char.ofNat 11) = false by decide),
    hne _ (show Char.isDigit (Char.ofNat 12) = false by decide)]

theorem isName_nodeName (i : ℕ) : IsName (nodeName i).toList := by
  unfold nodeName
  split
  · decide
  · intro c hc
    rw [String.toList_append] at hc
    rcases List.mem_append.mp hc with hc | hc
    · exact (show IsName "Client".toList by decide) c hc
    · exact isspace_digit (toString_digits i c hc)

theorem isName_localhost (k : ℕ) : IsName ("localhost:" ++ toString k).toList := by
  intro c hc
  rw [String.toList_append] at hc
  rcases List.mem_append.mp hc with hc | hc
  · exact (show IsName "localhost:".toList by decide) c hc
  · exact isspace_digit (toString_digits k c hc)

theorem ok_nmap : ∀ l ∈ nmap N, l.Ok := by
  intro l hl
  obtain ⟨i, -, rfl⟩ := List.mem_map.mp hl
  refine ⟨isName_nodeName i, fun peer hpeer => ?_⟩
  obtain ⟨v, -, rfl⟩ := List.mem_map.mp hpeer
  have haddress := isName_localhost (50050 + v + 1)
  refine ⟨isName_nodeName v, fun c hc => ?_⟩
  obtain ⟨hspace, -, hcomma, hat⟩ := haddress c hc
  exact ⟨hspace, hcomma, hat⟩

theorem mapPeers_ne_nil (h2 : 2 ≤ N) (i : ℕ) : mapPeers N i ≠ [] := by
  have hmem : (if i = 0 then 1 else 0) ∈ (List.range N).filter (· ≠ i) := by
    rw [List.mem_filter, List.mem_range, decide_eq_true_iff]
    split <;> omega
  intro hnil
  rw [List.map_eq_nil_iff.mp hnil] at hmem
  cases hmem

theorem nodup_mapPeers (N i : ℕ) : ((mapPeers N i).map Prod.fst).Nodup := by
  rw [mapPeers, List.map_map]
  apply List.Nodup.map
  · intro v w h
    exact nodeName_inj (String.toList_injective h)
  · exact List.nodup_range.filter _

theorem mem_mapPeers (name : Text) : name ∈ (mapPeers N i).map Prod.fst ↔
    ∃ v < N, v ≠ i ∧ (nodeName v).toList = name := by
  simp [mapPeers, mapEntry, and_assoc]

/-- The map has one line for each party. -/
theorem found_nmap (hi : i < N) : found (nmap N) (nodeName i).toList = mapPeers N i := by
  have hline : (nmap N).filter (·.node = (nodeName i).toList) =
      [⟨(nodeName i).toList, mapPeers N i⟩] := by
    have hfilter : (List.range N).filter (fun v => (nodeName v).toList = (nodeName i).toList) = [i] := by
      have hcongr : (List.range N).filter (fun v => (nodeName v).toList = (nodeName i).toList) =
          (List.range N).filter (· = i) := by
        apply List.filter_congr
        intro v _
        apply decide_eq_decide.mpr
        exact ⟨fun h => nodeName_inj (String.toList_injective h), fun h => by rw [h]⟩
      rw [hcongr, List.filter_eq, List.count_eq_one_of_mem List.nodup_range (List.mem_range.mpr hi)]
      rfl
    rw [nmap, List.filter_map]
    exact congrArg _ hfilter
  rw [found, hline, List.flatMap_singleton]
  apply cut_eq_self
  intro peer hpeer hdash
  obtain ⟨v, -, rfl⟩ := List.mem_map.mp hpeer
  exact (isName_localhost _).dash hdash

/-! ## The parties that are loaded -/

/-- The look-up of a party returns its peers. -/
theorem exists_connected (h2 : 2 ≤ N) (hi : i < N) : ∃ fuel node,
    AddNodes fuel (nodeName i).toList (nmap_generator N) .default = some node ∧
      Connected (mapPeers N i) node := by
  have hlisted : ∃ l ∈ nmap N, l.node = (nodeName i).toList :=
    ⟨_, List.mem_map_of_mem (List.mem_range.mpr hi), rfl⟩
  have hne : ∀ l ∈ nmap N, l.node = (nodeName i).toList → l.peers ≠ [] := by
    intro l hl _
    obtain ⟨j, -, rfl⟩ := List.mem_map.mp hl
    exact mapPeers_ne_nil h2 j
  obtain ⟨fuel, hfuel⟩ := exists_addNodes ok_nmap hlisted hne
  rw [found_nmap hi, ← nmap_generator_eq] at hfuel
  exact ⟨fuel, _, hfuel, connected_addPeers (nodup_mapPeers N i)⟩

theorem mem_keys_of_connected {node : NodeImpl} (h : Connected (mapPeers N i) node) (name : Text) :
    name ∈ node.connectedAddresses.keys ↔ ∃ v < N, v ≠ i ∧ (nodeName v).toList = name := by
  rw [← mem_mapPeers, Std.ExtTreeMap.mem_keys, Std.ExtTreeMap.mem_iff_isSome_getElem?,
    Option.isSome_iff_exists]
  simp only [h.connectedAddresses, List.mem_map, Prod.exists, exists_and_right, exists_eq_right]

theorem exists_loads (h2 : 2 ≤ N) (hi : i < N) : ∃ L, Loads N i L := by
  obtain ⟨fuel, node, hfuel, hnode⟩ := exists_connected h2 hi
  have hrange : node.connectedAddresses.keys ∈ Set.range (List.map fun v => (nodeName v).toList) := by
    rw [Set.range_list_map]
    intro name hname
    obtain ⟨v, -, -, hv⟩ := (mem_keys_of_connected hnode name).mp hname
    exact ⟨v, hv⟩
  obtain ⟨L, hL⟩ := hrange
  exact ⟨L, fuel, node, hfuel, hL⟩

/-- **A party broadcasts to every other party, once.** -/
theorem Loads.nodup_mem (h : Loads N i L) (h2 : 2 ≤ N) (hi : i < N) :
    L.Nodup ∧ ∀ v, v ∈ L ↔ v < N ∧ v ≠ i := by
  obtain ⟨fuel, node, hfuel, hL⟩ := h
  obtain ⟨fuel', node', hfuel', hnode⟩ := exists_connected h2 hi
  obtain rfl := eq_of_addNodes hfuel hfuel'
  refine ⟨.of_map _ (hL ▸ Std.ExtTreeMap.nodup_keys), fun v => ?_⟩
  have hinj : Function.Injective fun v => (nodeName v).toList :=
    fun _ _ h => nodeName_inj (String.toList_injective h)
  rw [← List.mem_map_of_injective hinj, hL, mem_keys_of_connected hnode]
  constructor
  · rintro ⟨w, hw, hne, heq⟩
    obtain rfl := hinj heq
    exact ⟨hw, hne⟩
  · rintro ⟨hv, hne⟩
    exact ⟨v, hv, hne, rfl⟩

end TestNets
