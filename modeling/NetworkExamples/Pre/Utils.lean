import Mathlib.Data.List.Basic

/-!
# Names, channels and routing tables

The code of `utils.cpp` of the network for proxy re-encryption. A broker keeps its **routing
table** in a file: a line `channel:source>destination;flag` for each channel that it has served.

* `ParseRoutingTable`, `UpdateRoutingTable`: reading and writing the file.
* `ParseRoutingTable_render`: a file of lines whose names are words (`Word`) can be read.
-/

namespace Pre

/-- The texts of the program: names, types of clients, channels, files. -/
abbrev Text : Type := List Char

instance (name : Text) (names : List Text) : Decidable (name ∈ names) :=
  List.instDecidableMemOfLawfulBEq name names

/-! ## The types of the clients -/

def producer : Text := "producer".toList
def broker : Text := "broker".toList
def consumer : Text := "consumer".toList

theorem producer_ne_broker : producer ≠ broker := by decide
theorem consumer_ne_broker : consumer ≠ broker := by decide

/-! ## Splitting -/

/-- The delimiters of the code are single characters. -/
def SplitString (data : Text) (delimiter : Char) : List Text := data.splitOn delimiter

/-- What ends a word of a stream. -/
def isspace (c : Char) : Bool :=
  c = ' ' || c = '\t' || c = '\n' || c = '\r' || c = Char.ofNat 11 || c = Char.ofNat 12

/-- The words that `>>` reads from a file. -/
def words (file : Text) : List Text := (file.splitOnP isspace).filter (· ≠ [])

/-! ## The routing table -/

/-- A line of a routing table. -/
structure Route where
  channelName : Text
  channelSource : Text
  channelDest : Text
  channelFlag : Text
  deriving DecidableEq

/-- One line; `none`: a part of it is missing, and the code reads past the end of a vector. -/
def parseRoute (data : Text) : Option Route := do
  let channelNameSplit := SplitString data ':'
  let channelSourceSplit := SplitString (← channelNameSplit[1]?) '>'
  let channelDestSplit := SplitString (← channelSourceSplit[1]?) ';'
  return ⟨← channelNameSplit[0]?, ← channelSourceSplit[0]?, ← channelDestSplit[0]?,
    ← channelDestSplit[1]?⟩

/-- The routes to `destination_client_name`. -/
def ParseRoutingTable (routingTable destination_client_name : Text) : Option (List Route) := do
  let routes ← (words routingTable).mapM parseRoute
  return routes.filter (·.channelDest = destination_client_name)

def Route.data (r : Route) : Text :=
  r.channelName ++ ':' :: (r.channelSource ++ '>' :: (r.channelDest ++ ';' :: r.channelFlag))

/-- The flag of a route. -/
def source_sink (source_sink_flag : Bool) : Text := if source_sink_flag then "source".toList else []

def UpdateRoutingTable (routingTable channel_name upstream_client_name downstream_client_name : Text)
    (source_sink_flag : Bool) : Text :=
  routingTable ++ (Route.data ⟨channel_name, upstream_client_name, downstream_client_name,
    source_sink source_sink_flag⟩ ++ ['\n'])

/-! ## Names -/

/-- A name that can be in a line of the routing table. -/
def Word (name : Text) : Prop := ∀ c ∈ name, isspace c = false ∧ c ≠ ':' ∧ c ≠ '>'

instance (name : Text) : Decidable (Word name) :=
  List.decidableBAll (fun c => isspace c = false ∧ c ≠ ':' ∧ c ≠ '>') name

/-- A name that no delimiter cuts. -/
structure Plain (name : Text) : Prop where
  word : Word name
  dash : '-' ∉ name

instance (name : Text) : Decidable (Plain name) :=
  decidable_of_iff (Word name ∧ '-' ∉ name) ⟨fun h => ⟨h.1, h.2⟩, fun h => ⟨h.word, h.dash⟩⟩

namespace Word

variable {name : Text}

theorem line (h : Word name) : ∀ c ∈ name, Pre.isspace c = false ∧ c ≠ ':' :=
  fun c hc => ⟨(h c hc).1, (h c hc).2.1⟩
theorem isspace (h : Word name) : ∀ c ∈ name, Pre.isspace c = false := fun c hc => (h c hc).1
theorem colon (h : Word name) : ':' ∉ name := fun hc => (h _ hc).2.1 rfl
theorem greater (h : Word name) : '>' ∉ name := fun hc => (h _ hc).2.2 rfl

end Word

theorem word_source_sink (source_sink_flag : Bool) : Word (source_sink source_sink_flag) := by
  cases source_sink_flag <;> decide

/-- The channel from a producer to a consumer. -/
def channel (producer_name consumer_name : Text) : Text := producer_name ++ '-' :: consumer_name

theorem word_channel {p c : Text} (hp : Word p) (hc : Word c) : Word (channel p c) := by
  intro x hx
  rcases List.mem_append.mp hx with hx | hx
  · exact hp x hx
  · rcases List.mem_cons.mp hx with rfl | hx
    · decide
    · exact hc x hx

theorem splitString_append {x y : Text} {d : Char} (hx : d ∉ x) (hy : d ∉ y) :
    SplitString (x ++ d :: y) d = [x, y] := by
  unfold SplitString
  rw [List.splitOn_append_cons_self_of_not_mem hx, List.splitOn_eq_singleton hy]

theorem splitString_channel {p c : Text} (hp : Plain p) (hc : Plain c) :
    SplitString (channel p c) '-' = [p, c] :=
  splitString_append hp.dash hc.dash

/-- A route that can be written to a line. -/
structure Route.Ok (r : Route) : Prop where
  channelName : ∀ c ∈ r.channelName, isspace c = false ∧ c ≠ ':'
  channelSource : Word r.channelSource
  channelDest : Word r.channelDest
  channelFlag : Word r.channelFlag

variable {r : Route}

/-- The line is read. A `;` in the name of the destination cuts it. -/
theorem parseRoute_data (h : r.Ok) :
    ∃ dest flag, parseRoute r.data = some ⟨r.channelName, r.channelSource, dest, flag⟩ := by
  have hrest : '>' ∉ r.channelDest ++ ';' :: r.channelFlag := by
    simp [h.channelDest.greater, h.channelFlag.greater]
  have hrest' : ':' ∉ r.channelSource ++ '>' :: (r.channelDest ++ ';' :: r.channelFlag) := by
    simp [h.channelSource.colon, h.channelDest.colon, h.channelFlag.colon]
  have hname : ':' ∉ r.channelName := fun hc => (h.channelName _ hc).2 rfl
  obtain ⟨dest, l, hdest⟩ := List.exists_cons_of_ne_nil (List.splitOn_ne_nil ';' r.channelDest)
  obtain ⟨flag, l', hflag⟩ := List.exists_cons_of_ne_nil (List.splitOn_ne_nil ';' r.channelFlag)
  have hsplit : SplitString (r.channelDest ++ ';' :: r.channelFlag) ';' = dest :: (l ++ flag :: l') := by
    unfold SplitString
    rw [List.splitOn_append_cons_self, hdest, hflag, List.cons_append]
  obtain ⟨second, rest, hsecond⟩ := List.exists_cons_of_ne_nil (l := l ++ flag :: l') (by simp)
  refine ⟨dest, second, ?_⟩
  unfold parseRoute Route.data
  simp [splitString_append hname hrest', splitString_append h.channelSource.greater hrest, hsplit,
    hsecond]

theorem isspace_data (h : r.Ok) : ∀ c ∈ r.data, isspace c = false := by
  intro c hc
  simp only [Route.data, List.mem_append, List.mem_cons] at hc
  rcases hc with hc | rfl | hc | rfl | hc | rfl | hc
  · exact (h.channelName c hc).1
  · decide
  · exact h.channelSource.isspace c hc
  · decide
  · exact h.channelDest.isspace c hc
  · decide
  · exact h.channelFlag.isspace c hc

/-- The file with the lines `l`. -/
def render (l : List Route) : Text := l.flatMap fun r => r.data ++ ['\n']

theorem words_render {l : List Route} (h : ∀ r ∈ l, r.Ok) : words (render l) = l.map Route.data := by
  induction l with
  | nil => rfl
  | cons r l ih =>
    have hr := h r (by simp)
    have hcut : (r.data ++ '\n' :: render l).splitOnP isspace =
        r.data :: (render l).splitOnP isspace :=
      List.splitOnP_append_cons_of_forall_mem (isspace_data hr) '\n' (by decide) _
    have hne : r.data ≠ [] := by simp [Route.data]
    have hl : words (render l) = l.map Route.data := ih fun r' hr' => h r' (by simp [hr'])
    calc words (render (r :: l)) = words (r.data ++ '\n' :: render l) := by simp [render]
      _ = r.data :: words (render l) := by simp [words, hcut, hne]
      _ = (r :: l).map Route.data := by rw [hl, List.map_cons]

/-- **The table can be read**, and names no other channels. -/
theorem ParseRoutingTable_render {l : List Route} (h : ∀ r ∈ l, r.Ok) (dest : Text) :
    ∃ routes, ParseRoutingTable (render l) dest = some routes ∧
      ∀ r ∈ routes, ∃ r' ∈ l, r.channelName = r'.channelName := by
  have hmap : ∃ routes, (l.map Route.data).mapM parseRoute = some routes ∧
      ∀ r ∈ routes, ∃ r' ∈ l, r.channelName = r'.channelName := by
    induction l with
    | nil => exact ⟨[], rfl, fun r hr => by cases hr⟩
    | cons r l ih =>
      obtain ⟨routes, hroutes, hnames⟩ := ih fun r' hr' => h r' (by simp [hr'])
      obtain ⟨d, flag, hr⟩ := parseRoute_data (h r (by simp))
      refine ⟨⟨r.channelName, r.channelSource, d, flag⟩ :: routes, ?_, fun r' hr' => ?_⟩
      · simp [List.mapM_cons, hr, hroutes]
      · rcases List.mem_cons.mp hr' with rfl | hr'
        · exact ⟨r, by simp, rfl⟩
        · obtain ⟨r'', hmem, hname⟩ := hnames r' hr'
          exact ⟨r'', by simp [hmem], hname⟩
  obtain ⟨routes, hroutes, hnames⟩ := hmap
  refine ⟨routes.filter (·.channelDest = dest), ?_, fun r hr => hnames r (List.mem_filter.mp hr).1⟩
  unfold ParseRoutingTable
  simp [words_render h, hroutes]

theorem UpdateRoutingTable_render (l : List Route) (ch up down : Text) (flag : Bool) :
    UpdateRoutingTable (render l) ch up down flag =
      render (l ++ [⟨ch, up, down, source_sink flag⟩]) := by
  simp [UpdateRoutingTable, render]

end Pre
