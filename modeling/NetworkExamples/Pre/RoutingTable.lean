import NetworkExamples.Pre.Utils
import Mathlib.Data.List.Basic
import Std.Data.ExtTreeMap

/-!
# The routing table as a map

`ParseRoutingTable` enters the lines of the file, one after the other, into a map from the channels
to their sources, destinations and flags: of two lines for a channel the later one counts.

* `ParseRoutingTable_eq`: the map has the channels of the list in which the brokers look.
* `round_trip`: what `UpdateRoutingTable` has written is read.
-/

namespace Pre

namespace RoutingTable

/-! ## Reading -/

/-- The channels of the file. -/
abbrev Channels : Type := Std.ExtTreeMap Text (List Text)

/-- `channel[channelName] = {channelSource, channelDest, channelFlag}`. -/
def assign (channel : Channels) (r : Route) : Channels :=
  channel.insert r.channelName [r.channelSource, r.channelDest, r.channelFlag]

/-- A line of the file. -/
def enter (destination_client_name : Text) (channel : Channels) (data : Text) : Option Channels := do
  let r ← parseRoute data
  if r.channelDest = destination_client_name then return assign channel r
  else return channel

def ParseRoutingTable (routingTable destination_client_name : Text) : Option Channels :=
  (words routingTable).foldlM (enter destination_client_name) ∅

theorem foldlM_enter (dest : Text) (lines : List Text) (channel : Channels) :
    lines.foldlM (enter dest) channel = (lines.mapM parseRoute).map fun routes =>
      (routes.filter (·.channelDest = dest)).foldl assign channel := by
  induction lines generalizing channel with
  | nil => rfl
  | cons data lines ih =>
    rw [List.foldlM_cons, List.mapM_cons]
    cases hdata : parseRoute data with
    | none =>
      have henter : enter dest channel data = none := by
        unfold enter
        rw [hdata]
        rfl
      rw [henter]
      rfl
    | some r =>
      have henter : enter dest channel data =
          some (if r.channelDest = dest then assign channel r else channel) := by
        unfold enter
        rw [hdata]
        by_cases hr : r.channelDest = dest <;> simp [hr]
      rw [henter, Option.bind_eq_bind, Option.bind_some, ih]
      by_cases hr : r.channelDest = dest <;> cases lines.mapM parseRoute <;> simp [hr]

/-- The brokers look for a channel in the list of the routes. -/
theorem ParseRoutingTable_eq (file dest : Text) :
    ParseRoutingTable file dest = (Pre.ParseRoutingTable file dest).map (List.foldl assign ∅) := by
  unfold ParseRoutingTable Pre.ParseRoutingTable
  rw [foldlM_enter]
  cases (words file).mapM parseRoute <;> rfl

/-- The last route of a channel counts. -/
theorem getElem?_foldl_assign (routes : List Route) (channel : Channels) (name : Text) :
    (routes.foldl assign channel)[name]? =
      ((routes.filter (·.channelName = name)).getLast?.map fun r =>
        [r.channelSource, r.channelDest, r.channelFlag]).or channel[name]? := by
  induction routes generalizing channel with
  | nil => rfl
  | cons r routes ih =>
    have hinsert : (assign channel r)[name]? = if r.channelName = name then
        some [r.channelSource, r.channelDest, r.channelFlag] else channel[name]? := by
      unfold assign
      simp only [Std.ExtTreeMap.getElem?_insert, Std.compare_eq_iff_eq]
    rw [List.foldl_cons, ih, hinsert]
    by_cases hr : r.channelName = name
    · rw [if_pos hr, List.filter_cons_of_pos (by simpa using hr), List.getLast?_cons]
      cases (routes.filter (·.channelName = name)).getLast? <;> rfl
    · rw [if_neg hr, List.filter_cons_of_neg (by simpa using hr)]

/-! ## Writing -/

/-- The arguments of `UpdateRoutingTable`. -/
structure Update where
  channel_name : Text
  upstream_client_name : Text
  downstream_client_name : Text
  source_sink_flag : Bool

/-- A name that can be in any place of a line. -/
structure Name (name : Text) : Prop where
  word : Word name
  semicolon : ';' ∉ name

instance (name : Text) : Decidable (Name name) :=
  decidable_of_iff (Word name ∧ ';' ∉ name) ⟨fun h => ⟨h.1, h.2⟩, fun h => ⟨h.word, h.semicolon⟩⟩

namespace Update

def route (u : Update) : Route where
  channelName := u.channel_name
  channelSource := u.upstream_client_name
  channelDest := u.downstream_client_name
  channelFlag := source_sink u.source_sink_flag

structure Names (u : Update) : Prop where
  channel_name : Name u.channel_name
  upstream_client_name : Name u.upstream_client_name
  downstream_client_name : Name u.downstream_client_name

theorem Names.ok {u : Update} (h : u.Names) : u.route.Ok where
  channelName := h.channel_name.word.line
  channelSource := h.upstream_client_name.word
  channelDest := h.downstream_client_name.word
  channelFlag := word_source_sink u.source_sink_flag

end Update

/-- The file after the updates, from a cleared one on. -/
def written (updates : List Update) : Text :=
  updates.foldl (fun routingTable u => UpdateRoutingTable routingTable u.channel_name
    u.upstream_client_name u.downstream_client_name u.source_sink_flag) []

theorem foldl_updates (updates : List Update) (l : List Route) :
    updates.foldl (fun routingTable u => UpdateRoutingTable routingTable u.channel_name
      u.upstream_client_name u.downstream_client_name u.source_sink_flag) (render l) =
    render (l ++ updates.map Update.route) := by
  induction updates generalizing l with
  | nil => simp
  | cons u updates ih =>
    rw [List.foldl_cons, UpdateRoutingTable_render, ih, List.map_cons, List.append_assoc]
    rfl

theorem written_eq_render (updates : List Update) :
    written updates = render (updates.map Update.route) :=
  foldl_updates updates []

/-- Without a `;` in a name the line is read as it was written. -/
theorem parseRoute_route {u : Update} (h : u.Names) : parseRoute u.route.data = some u.route := by
  have hflag : ';' ∉ source_sink u.source_sink_flag := by
    cases u.source_sink_flag <;> decide
  have hsemicolon : SplitString (u.downstream_client_name ++ ';' :: source_sink u.source_sink_flag)
      ';' = [u.downstream_client_name, source_sink u.source_sink_flag] :=
    splitString_append h.downstream_client_name.semicolon hflag
  have hgreater : '>' ∉ u.downstream_client_name ++ ';' :: source_sink u.source_sink_flag := by
    simp [h.downstream_client_name.word.greater, (word_source_sink u.source_sink_flag).greater]
  have hcolon : ':' ∉ u.upstream_client_name ++ '>' ::
      (u.downstream_client_name ++ ';' :: source_sink u.source_sink_flag) := by
    simp [h.upstream_client_name.word.colon, h.downstream_client_name.word.colon,
      (word_source_sink u.source_sink_flag).colon]
  unfold parseRoute Route.data Update.route
  simp [splitString_append h.channel_name.word.colon hcolon,
    splitString_append h.upstream_client_name.word.greater hgreater, hsemicolon]

theorem mapM_parseRoute {updates : List Update} (h : ∀ u ∈ updates, u.Names) :
    ((updates.map Update.route).map Route.data).mapM parseRoute =
      some (updates.map Update.route) := by
  induction updates with
  | nil => rfl
  | cons u updates ih =>
    simp only [List.map_cons, List.mapM_cons, parseRoute_route (h u List.mem_cons_self),
      Option.bind_eq_bind, Option.bind_some]
    rw [ih fun u' hu' => h u' (List.mem_cons_of_mem u hu')]
    rfl

/-- The reader enters the routes with its destination. -/
theorem ParseRoutingTable_written {updates : List Update} (h : ∀ u ∈ updates, u.Names) (dest : Text) :
    ParseRoutingTable (written updates) dest =
      some (((updates.map Update.route).filter (·.channelDest = dest)).foldl assign ∅) := by
  have hok : ∀ r ∈ updates.map Update.route, r.Ok := by
    intro r hr
    obtain ⟨u, hu, rfl⟩ := List.mem_map.mp hr
    exact (h u hu).ok
  unfold ParseRoutingTable
  rw [written_eq_render, words_render hok, foldlM_enter, mapM_parseRoute h]
  rfl

/-- The updates of a channel with this destination. -/
theorem filter_route (updates : List Update) (dest name : Text) :
    ((updates.map Update.route).filter (·.channelDest = dest)).filter (·.channelName = name) =
      (updates.filter fun u => u.downstream_client_name = dest ∧ u.channel_name = name).map
        Update.route := by
  rw [List.filter_filter, List.filter_map]
  congr 1
  apply List.filter_congr
  intro u _
  exact (Bool.and_comm _ _).trans (Bool.decide_and _ _).symm

/-- **What has been written is read**: the channels of the updates with this destination, each with
the source and the flag of the last of them. -/
theorem round_trip (updates : List Update) (h : ∀ u ∈ updates, u.Names)
    (destination_client_name : Text) :
    ∃ channel, ParseRoutingTable (written updates) destination_client_name = some channel ∧
      ∀ name, channel[name]? =
        ((updates.filter fun u => u.downstream_client_name = destination_client_name ∧
          u.channel_name = name).getLast?).map fun u =>
            [u.upstream_client_name, destination_client_name, source_sink u.source_sink_flag] := by
  refine ⟨_, ParseRoutingTable_written h destination_client_name, fun name => ?_⟩
  rw [getElem?_foldl_assign, filter_route, List.getLast?_map, Std.ExtTreeMap.getElem?_empty,
    Option.or_none, Option.map_map]
  cases hlast : (updates.filter fun u => u.downstream_client_name = destination_client_name ∧
    u.channel_name = name).getLast? with
  | none => rfl
  | some u =>
    have hmem := (List.mem_filter.mp (List.mem_of_getLast? hlast)).2
    have hdest : u.downstream_client_name = destination_client_name := (of_decide_eq_true hmem).1
    rw [Option.map_some, Option.map_some, ← hdest]
    rfl

/-- Two lines for one channel. -/
theorem round_trip_two : ∃ channel : Channels,
    ParseRoutingTable (written [⟨"p-c".toList, "p".toList, "c".toList, true⟩,
      ⟨"p-c".toList, "B".toList, "c".toList, false⟩]) "c".toList = some channel ∧
    channel["p-c".toList]? = some ["B".toList, "c".toList, []] := by
  obtain ⟨channel, hparse, hchannel⟩ := round_trip [⟨"p-c".toList, "p".toList, "c".toList, true⟩,
    ⟨"p-c".toList, "B".toList, "c".toList, false⟩] (fun u hu => by
      simp only [List.mem_cons, List.not_mem_nil, or_false] at hu
      rcases hu with rfl | rfl <;> exact ⟨by decide, by decide, by decide⟩) "c".toList
  exact ⟨channel, hparse, (hchannel _).trans (by decide)⟩

end RoutingTable

end Pre
