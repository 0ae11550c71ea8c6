import Lash.Jack.Legacy
import Lash.Lib.Keyed
import Mathlib.Data.List.Infix

/-!
# The connections of a client

`jack_mgr_get_patches` of `lashd/jack_mgr.c`, with the parts of `lashd/jack_patch.c` that it calls.
It asks JACK for the ports of a client by a regular expression, the name of the client and `:.*`,
and JACK answers with every port whose full name contains a match. So the name of the client is
taken for a pattern, and nothing ties it to the beginning of the full name: `getPatches_iff` says
for which names and graphs the list is right all the same.

The texts that describe a patch, which are made again whenever a patch is copied, are left out.
-/

namespace Lash

namespace Legacy

/-! ## JACK -/

/-- A port of a JACK client. -/
structure JackPort where
  client : CStr
  port : CStr
  isInput : Bool
  deriving DecidableEq

/-- `jack_port_name` -/
def JackPort.fullName (p : JackPort) : CStr := p.client ++ colon :: p.port

/-- The ports of all JACK clients, and the connections, each from an output to an input. -/
structure JackGraph where
  ports : List JackPort
  connections : List (JackPort × JackPort)
  /-- JACK registers no port under a name that is in use. -/
  distinct : (ports.map JackPort.fullName).Nodup
  source : ∀ c ∈ connections, c.1 ∈ ports ∧ c.1.isInput = false
  destination : ∀ c ∈ connections, c.2 ∈ ports ∧ c.2.isInput = true

/-- Whether a text contains a match of an extended regular expression. -/
abbrev RegexSearch := CStr → CStr → Bool

/-- `jack_get_ports`, for the ports in one direction -/
def jackGetPorts (search : RegexSearch) (g : JackGraph) (regex : CStr) (isInput : Bool) :
    List CStr :=
  (g.ports.filter (fun p => p.isInput = isInput && search regex p.fullName)).map JackPort.fullName

/-- `jack_port_get_all_connections`, for the port with a full name -/
def jackPortGetAllConnections (g : JackGraph) (name : CStr) : List CStr :=
  g.connections.filterMap (fun c =>
    if c.1.fullName = name then some c.2.fullName
    else if c.2.fullName = name then some c.1.fullName
    else none)

/-! ## Making patches -/

/-- `jack_patch_new` -/
def jackPatchNew : JackPatch where
  srcClient := none
  srcClientId := 0
  srcPort := []
  destClient := none
  destClientId := 0
  destPort := []

/-- `jack_patch_set_src`; a name without a colon is a crash, and so it is in the next function. -/
def jackPatchSetSrc (patch : JackPatch) (src : CStr) : Option JackPatch :=
  (splitName src).map (fun r => { patch with srcClient := some r.1, srcPort := r.2 })

/-- `jack_patch_set_dest` -/
def jackPatchSetDest (patch : JackPatch) (dest : CStr) : Option JackPatch :=
  (splitName dest).map (fun r => { patch with destClient := some r.1, destPort := r.2 })

/-- `jack_patch_switch_clients` -/
def jackPatchSwitchClients (patch : JackPatch) : JackPatch where
  srcClient := patch.destClient
  srcClientId := patch.destClientId
  srcPort := patch.destPort
  destClient := patch.srcClient
  destClientId := patch.srcClientId
  destPort := patch.srcPort

/-- One round of the inner loop of `jack_mgr_get_patches_with_type`: the patch between the port that
was found and one it is connected to. -/
def patchBetween (isInput : Bool) (port connected : CStr) : Option JackPatch :=
  (jackPatchSetSrc jackPatchNew port).bind fun patch =>
    (jackPatchSetDest patch connected).map fun patch =>
      if isInput then jackPatchSwitchClients patch else patch

/-- The inner loop. -/
def addConnections (isInput : Bool) (port : CStr) (dest : List JackPatch) :
    List CStr → Option (List JackPatch)
  | [] => some dest
  | connected :: rest =>
    (patchBetween isInput port connected).bind fun patch =>
      addConnections isInput port (dest ++ [patch]) rest

/-- The outer loop. -/
def addPorts (g : JackGraph) (isInput : Bool) (dest : List JackPatch) :
    List CStr → Option (List JackPatch)
  | [] => some dest
  | port :: rest =>
    (addConnections isInput port dest (jackPortGetAllConnections g port)).bind fun dest =>
      addPorts g isInput dest rest

/-- `jack_mgr_get_patches_with_type` -/
def getPatchesWithType (search : RegexSearch) (g : JackGraph) (clientName : CStr) (isInput : Bool)
    (dest : List JackPatch) : Option (List JackPatch) :=
  addPorts g isInput dest (jackGetPorts search g (clientName ++ cstr ":.*") isInput)

/-- `jack_mgr_get_patches`: the patches at the outputs, and then those at the inputs in front. -/
def getPatches (search : RegexSearch) (g : JackGraph) (client : JackMgrClient) :
    Option JackMgrClient :=
  (getPatchesWithType search g client.name false []).bind fun outputs =>
    (getPatchesWithType search g client.name true []).map fun inputs =>
      { client with patches := inputs ++ outputs }

/-! ## What the loops do -/

variable {search : RegexSearch} {g : JackGraph} {name full : CStr} {isInput : Bool}

/-- The ends of a patch, as full names. -/
def patchEnds (patch : JackPatch) : CStr × CStr :=
  (patchDesc patch.srcClient patch.srcClientId patch.srcPort,
    patchDesc patch.destClient patch.destClientId patch.destPort)

theorem colon_mem_fullName (p : JackPort) : colon ∈ p.fullName := by
  unfold JackPort.fullName
  simp

/-- A patch goes from the output to the input, in whichever direction it was found. -/
theorem patchBetween_eq (isInput : Bool) {port connected : CStr} (hport : colon ∈ port)
    (hconnected : colon ∈ connected) :
    ∃ patch, patchBetween isInput port connected = some patch ∧
      patchEnds patch = if isInput then (connected, port) else (port, connected) := by
  obtain ⟨c, p, hsplit, hjoin⟩ := splitName_join hport
  obtain ⟨c', p', hsplit', hjoin'⟩ := splitName_join hconnected
  unfold patchBetween jackPatchSetSrc jackPatchSetDest
  rw [hsplit, hsplit']
  refine ⟨_, rfl, ?_⟩
  rw [← hjoin, ← hjoin']
  cases isInput with
  | false => rfl
  | true => rfl

theorem addConnections_eq (isInput : Bool) {port : CStr} (hport : colon ∈ port) {l : List CStr}
    (hl : ∀ q ∈ l, colon ∈ q) (dest : List JackPatch) :
    ∃ patches, addConnections isInput port dest l = some (dest ++ patches) ∧
      patches.map patchEnds = l.map (fun q => if isInput then (q, port) else (port, q)) := by
  induction l generalizing dest with
  | nil => exact ⟨[], by rw [addConnections, List.append_nil], rfl⟩
  | cons q l ih =>
      have hq : colon ∈ q := hl q List.mem_cons_self
      obtain ⟨patch, hpatch, hends⟩ := patchBetween_eq isInput hport hq
      obtain ⟨patches, hrest, hmap⟩ := ih (fun q hq => hl q (List.mem_cons_of_mem _ hq))
        (dest ++ [patch])
      refine ⟨patch :: patches, ?_, ?_⟩
      · rw [addConnections, hpatch, Option.bind_some, hrest, List.append_assoc,
          List.singleton_append]
      · rw [List.map_cons, List.map_cons, hends, hmap]

/-- The ends of the patches that are found at a port in one direction. -/
def endsAt (g : JackGraph) (isInput : Bool) (port : CStr) : List (CStr × CStr) :=
  (jackPortGetAllConnections g port).map (fun q => if isInput then (q, port) else (port, q))

theorem colon_mem_connected {q : CStr} (h : q ∈ jackPortGetAllConnections g full) : colon ∈ q := by
  obtain ⟨c, -, hc⟩ := List.mem_filterMap.mp h
  split_ifs at hc
  · rw [← Option.some.inj hc]
    exact colon_mem_fullName c.2
  · rw [← Option.some.inj hc]
    exact colon_mem_fullName c.1

theorem addPorts_eq (g : JackGraph) (isInput : Bool) {l : List CStr} (hl : ∀ port ∈ l, colon ∈ port)
    (dest : List JackPatch) :
    ∃ patches, addPorts g isInput dest l = some (dest ++ patches) ∧
      patches.map patchEnds = l.flatMap (endsAt g isInput) := by
  induction l generalizing dest with
  | nil => exact ⟨[], by rw [addPorts, List.append_nil], rfl⟩
  | cons port l ih =>
      have hport : colon ∈ port := hl port List.mem_cons_self
      obtain ⟨found, hfound, hends⟩ := addConnections_eq isInput hport
        (fun _ hq => colon_mem_connected hq) dest
      obtain ⟨patches, hrest, hmap⟩ := ih (fun q hq => hl q (List.mem_cons_of_mem _ hq))
        (dest ++ found)
      refine ⟨found ++ patches, ?_, ?_⟩
      · rw [addPorts, hfound, Option.bind_some, hrest, List.append_assoc]
      · rw [List.map_append, List.flatMap_cons, hmap, hends]
        rfl

/-- One call finds the connections at the ports that match. -/
theorem getPatchesWithType_eq (search : RegexSearch) (g : JackGraph) (name : CStr)
    (isInput : Bool) :
    ∃ patches, getPatchesWithType search g name isInput [] = some patches ∧
      patches.map patchEnds =
        (jackGetPorts search g (name ++ cstr ":.*") isInput).flatMap (endsAt g isInput) := by
  have hports : ∀ port ∈ jackGetPorts search g (name ++ cstr ":.*") isInput, colon ∈ port := by
    intro port hport
    obtain ⟨p, -, rfl⟩ := List.mem_map.mp hport
    exact colon_mem_fullName p
  exact addPorts_eq g isInput hports []

/-- Two ports with one full name are the same. -/
theorem JackGraph.eq_of_fullName {p q : JackPort} (hp : p ∈ g.ports) (hq : q ∈ g.ports)
    (h : p.fullName = q.fullName) : p = q :=
  Keyed.eq_of_key_eq g.distinct hp hq h

/-- An output is connected to the destinations of its connections. -/
theorem mem_connected_output {p : JackPort} {q : CStr} (hp : p ∈ g.ports)
    (hout : p.isInput = false) :
    q ∈ jackPortGetAllConnections g p.fullName ↔
      ∃ c ∈ g.connections, c.1 = p ∧ c.2.fullName = q := by
  unfold jackPortGetAllConnections
  rw [List.mem_filterMap]
  constructor
  · rintro ⟨c, hc, hq⟩
    split_ifs at hq with hsrc hdest
    · exact ⟨c, hc, g.eq_of_fullName (g.source c hc).1 hp hsrc, Option.some.inj hq⟩
    · -- the port would be an input
      have heq := g.eq_of_fullName (g.destination c hc).1 hp hdest
      have hin := (g.destination c hc).2
      rw [heq, hout] at hin
      exact absurd hin (by simp)
  · rintro ⟨c, hc, rfl, rfl⟩
    exact ⟨c, hc, if_pos rfl⟩

/-- An input is connected to the sources of its connections. -/
theorem mem_connected_input {p : JackPort} {q : CStr} (hp : p ∈ g.ports)
    (hin : p.isInput = true) :
    q ∈ jackPortGetAllConnections g p.fullName ↔
      ∃ c ∈ g.connections, c.2 = p ∧ c.1.fullName = q := by
  have hne : ∀ c ∈ g.connections, c.1.fullName ≠ p.fullName := by
    intro c hc heq
    have hout := (g.source c hc).2
    rw [g.eq_of_fullName (g.source c hc).1 hp heq, hin] at hout
    exact absurd hout (by simp)
  unfold jackPortGetAllConnections
  rw [List.mem_filterMap]
  constructor
  · rintro ⟨c, hc, hq⟩
    rw [if_neg (hne c hc)] at hq
    split_ifs at hq with hdest
    exact ⟨c, hc, g.eq_of_fullName (g.destination c hc).1 hp hdest, Option.some.inj hq⟩
  · rintro ⟨c, hc, rfl, rfl⟩
    refine ⟨c, hc, ?_⟩
    rw [if_neg (hne c hc), if_pos rfl]

theorem mem_jackGetPorts {regex : CStr} {p : JackPort} (hp : p ∈ g.ports) :
    p.fullName ∈ jackGetPorts search g regex isInput ↔
      p.isInput = isInput ∧ search regex p.fullName := by
  unfold jackGetPorts
  rw [List.mem_map]
  constructor
  · rintro ⟨q, hq, heq⟩
    obtain ⟨hq, hfound⟩ := List.mem_filter.mp hq
    rw [g.eq_of_fullName hq hp heq] at hfound
    simpa using hfound
  · intro hfound
    exact ⟨p, List.mem_filter.mpr ⟨hp, by simpa using hfound⟩, rfl⟩

/-- The output pass finds the connections whose source matches. -/
theorem mem_outputs_iff {regex src dest : CStr} :
    (src, dest) ∈ (jackGetPorts search g regex false).flatMap (endsAt g false) ↔
      ∃ c ∈ g.connections, c.1.fullName = src ∧ c.2.fullName = dest ∧
        search regex c.1.fullName := by
  rw [List.mem_flatMap]
  constructor
  · rintro ⟨port, hport, hends⟩
    obtain ⟨p, hp, rfl⟩ := List.mem_map.mp hport
    have hp := List.mem_of_mem_filter hp
    obtain ⟨hout, hfound⟩ := (mem_jackGetPorts hp).mp hport
    obtain ⟨q, hq, heq⟩ := List.mem_map.mp hends
    obtain ⟨rfl, rfl⟩ := Prod.mk.inj heq
    obtain ⟨c, hc, rfl, hdest⟩ := (mem_connected_output hp hout).mp hq
    exact ⟨c, hc, rfl, hdest, hfound⟩
  · rintro ⟨c, hc, rfl, rfl, hfound⟩
    obtain ⟨hp, hout⟩ := g.source c hc
    refine ⟨c.1.fullName, (mem_jackGetPorts hp).mpr ⟨hout, hfound⟩, ?_⟩
    exact List.mem_map.mpr ⟨_, (mem_connected_output hp hout).mpr ⟨c, hc, rfl, rfl⟩, rfl⟩

/-- The input pass finds the connections whose destination matches. -/
theorem mem_inputs_iff {regex src dest : CStr} :
    (src, dest) ∈ (jackGetPorts search g regex true).flatMap (endsAt g true) ↔
      ∃ c ∈ g.connections, c.1.fullName = src ∧ c.2.fullName = dest ∧
        search regex c.2.fullName := by
  rw [List.mem_flatMap]
  constructor
  · rintro ⟨port, hport, hends⟩
    obtain ⟨p, hp, rfl⟩ := List.mem_map.mp hport
    have hp := List.mem_of_mem_filter hp
    obtain ⟨hin, hfound⟩ := (mem_jackGetPorts hp).mp hport
    obtain ⟨q, hq, heq⟩ := List.mem_map.mp hends
    obtain ⟨rfl, rfl⟩ := Prod.mk.inj heq
    obtain ⟨c, hc, rfl, hsrc⟩ := (mem_connected_input hp hin).mp hq
    exact ⟨c, hc, hsrc, rfl, hfound⟩
  · rintro ⟨c, hc, rfl, rfl, hfound⟩
    obtain ⟨hp, hin⟩ := g.destination c hc
    refine ⟨c.2.fullName, (mem_jackGetPorts hp).mpr ⟨hin, hfound⟩, ?_⟩
    exact List.mem_map.mpr ⟨_, (mem_connected_input hp hin).mpr ⟨c, hc, rfl, rfl⟩, rfl⟩

/-- The patches that `jack_mgr_get_patches` finds for a client with a name. -/
def patchesOf (search : RegexSearch) (g : JackGraph) (name : CStr) : List JackPatch :=
  ((getPatchesWithType search g name true []).getD []) ++
    ((getPatchesWithType search g name false []).getD [])

theorem getPatches_eq (search : RegexSearch) (g : JackGraph) (client : JackMgrClient) :
    getPatches search g client =
      some { client with patches := patchesOf search g client.name } := by
  obtain ⟨outputs, houtputs, -⟩ := getPatchesWithType_eq search g client.name false
  obtain ⟨inputs, hinputs, -⟩ := getPatchesWithType_eq search g client.name true
  rw [getPatches, patchesOf, houtputs, hinputs]
  rfl

/-- The two passes find the connections one of whose ends matches. -/
theorem mem_patchesOf {name src dest : CStr} :
    (src, dest) ∈ (patchesOf search g name).map patchEnds ↔
      ∃ c ∈ g.connections, c.1.fullName = src ∧ c.2.fullName = dest ∧
        (search (name ++ cstr ":.*") c.1.fullName ∨ search (name ++ cstr ":.*") c.2.fullName) := by
  obtain ⟨outputs, houtputs, hout⟩ := getPatchesWithType_eq search g name false
  obtain ⟨inputs, hinputs, hin⟩ := getPatchesWithType_eq search g name true
  rw [patchesOf, houtputs, hinputs, Option.getD_some, Option.getD_some, List.map_append,
    List.mem_append, hin, hout, mem_inputs_iff, mem_outputs_iff]
  constructor
  · rintro (⟨c, hc, hsrc, hdest, hfound⟩ | ⟨c, hc, hsrc, hdest, hfound⟩)
    · exact ⟨c, hc, hsrc, hdest, Or.inr hfound⟩
    · exact ⟨c, hc, hsrc, hdest, Or.inl hfound⟩
  · rintro ⟨c, hc, hsrc, hdest, hfound | hfound⟩
    · exact Or.inr ⟨c, hc, hsrc, hdest, hfound⟩
    · exact Or.inl ⟨c, hc, hsrc, hdest, hfound⟩

/-- `jack_mgr_graph_reorder_notification` calls it for every client. -/
theorem graphReorder_clients (search : RegexSearch) (g : JackGraph) (s : JackSystem) :
    (s.graphReorder (patchesOf search g)).mgr.clients.map some =
      s.mgr.clients.map (getPatches search g) := by
  unfold JackSystem.graphReorder JackSystem.checkForeignPorts
  rw [List.map_map]
  apply List.map_congr_left
  intro client _
  exact (getPatches_eq search g client).symm

/-! ## Its own patches only -/

/-- The connection has an end at a port of the client. -/
def EndsAtClient (name : CStr) (c : JackPort × JackPort) : Prop :=
  c.1.client = name ∨ c.2.client = name

instance (name : CStr) (c : JackPort × JackPort) : Decidable (EndsAtClient name c) :=
  inferInstanceAs (Decidable (_ ∨ _))

/-- The patches of a client are the connections that have an end at one of its ports, each from its
output to its input. -/
def OwnPatches (g : JackGraph) (client : JackMgrClient) : Prop :=
  ∀ src dest, (src, dest) ∈ client.patches.map patchEnds ↔
    ∃ c ∈ g.connections, c.1.fullName = src ∧ c.2.fullName = dest ∧ EndsAtClient client.name c

/-- The regular expression matches an end of a connection exactly if the client has one. -/
def Selects (search : RegexSearch) (g : JackGraph) (name : CStr) : Prop :=
  ∀ c ∈ g.connections,
    (search (name ++ cstr ":.*") c.1.fullName ∨ search (name ++ cstr ":.*") c.2.fullName) ↔
      EndsAtClient name c

/-- A character that stands for itself in a regular expression. -/
def isOrdinary (b : UInt8) : Bool :=
  48 ≤ b && b ≤ 57 || 65 ≤ b && b ≤ 90 || 97 ≤ b && b ≤ 122 || b == 32 || b == 45 || b == 95

/-- Ordinary characters, a colon and `.*` match where a text contains these characters and the
colon. -/
def MatchesOrdinary (search : RegexSearch) : Prop :=
  ∀ name text : CStr, name.all isOrdinary →
    (search (name ++ cstr ":.*") text ↔ name ++ [colon] <:+: text)

/-- The name of the client and a colon are nowhere in the full names of the two ports of a
connection between other clients. -/
def Alone (g : JackGraph) (name : CStr) : Prop :=
  ∀ c ∈ g.connections, name ++ [colon] <:+: c.1.fullName ∨ name ++ [colon] <:+: c.2.fullName →
    EndsAtClient name c

theorem JackPort.client_in_fullName (p : JackPort) : p.client ++ [colon] <:+: p.fullName := by
  refine List.IsPrefix.isInfix ⟨p.port, ?_⟩
  rw [JackPort.fullName, List.append_assoc, List.singleton_append]

/-- For an ordinary name the regular expression is right if the name is not part of another. -/
theorem selects_iff_alone (hsearch : MatchesOrdinary search) (hname : name.all isOrdinary) :
    Selects search g name ↔ Alone g name := by
  have hmatches : ∀ text, search (name ++ cstr ":.*") text ↔ name ++ [colon] <:+: text :=
    fun text => hsearch name text hname
  unfold Selects Alone
  simp only [hmatches]
  constructor
  · intro h c hc
    exact (h c hc).mp
  · intro h c hc
    refine ⟨h c hc, ?_⟩
    -- a port of the client has its name in front
    rintro (rfl | rfl)
    · exact Or.inl c.1.client_in_fullName
    · exact Or.inr c.2.client_in_fullName

theorem ownPatches_iff (search : RegexSearch) (g : JackGraph) (client : JackMgrClient) :
    (∃ client', getPatches search g client = some client' ∧ client'.name = client.name ∧
      OwnPatches g client') ↔ Selects search g client.name := by
  rw [getPatches_eq]
  constructor
  · rintro ⟨client', hget, -, hown⟩ c hc
    obtain rfl := Option.some.inj hget
    have hmem := mem_patchesOf.symm.trans (hown c.1.fullName c.2.fullName)
    -- no other connection has ends with these full names
    have honly : ∀ d ∈ g.connections, d.1.fullName = c.1.fullName → d.2.fullName = c.2.fullName →
        d = c := by
      intro d hd hsrc hdest
      exact Prod.ext (g.eq_of_fullName (g.source d hd).1 (g.source c hc).1 hsrc)
        (g.eq_of_fullName (g.destination d hd).1 (g.destination c hc).1 hdest)
    constructor
    · intro hfound
      obtain ⟨d, hd, hsrc, hdest, hends⟩ := hmem.mp ⟨c, hc, rfl, rfl, hfound⟩
      rw [← honly d hd hsrc hdest]
      exact hends
    · intro hends
      obtain ⟨d, hd, hsrc, hdest, hfound⟩ := hmem.mpr ⟨c, hc, rfl, rfl, hends⟩
      rw [← honly d hd hsrc hdest]
      exact hfound
  · intro hselects
    refine ⟨_, rfl, rfl, ?_⟩
    intro src dest
    rw [mem_patchesOf]
    constructor
    · rintro ⟨c, hc, hsrc, hdest, hfound⟩
      exact ⟨c, hc, hsrc, hdest, (hselects c hc).mp hfound⟩
    · rintro ⟨c, hc, hsrc, hdest, hends⟩
      exact ⟨c, hc, hsrc, hdest, (hselects c hc).mpr hends⟩

/-- **A client gets its own patches only** exactly if, for every connection, the regular expression
made of its name matches one of the ends when one of them is a port of the client and neither when
none is. For a name of ordinary characters this means that no connection of two other clients has an
end with the name and a colon somewhere in its full name. -/
theorem getPatches_iff (hsearch : MatchesOrdinary search) (g : JackGraph) (client : JackMgrClient) :
    ((∃ client', getPatches search g client = some client' ∧ client'.name = client.name ∧
        OwnPatches g client') ↔ Selects search g client.name) ∧
      (client.name.all isOrdinary → (Selects search g client.name ↔ Alone g client.name)) :=
  ⟨ownPatches_iff search g client, fun hname => selects_iff_alone hsearch hname⟩

/-! ## Two clients, one of whose names ends in the other -/

instance (g : JackGraph) (name : CStr) : Decidable (Alone g name) :=
  inferInstanceAs (Decidable (∀ c ∈ _, _))

/-- A search that is right for regular expressions of ordinary characters, a colon and `.*`. -/
def literalSearch : RegexSearch := fun regex text => regex.take (regex.length - 2) <:+: text

theorem literalSearch_matchesOrdinary : MatchesOrdinary literalSearch := by
  intro name text _
  have hregex : name ++ cstr ":.*" = (name ++ [colon]) ++ [46, 42] := by
    rw [List.append_assoc]
    rfl
  have htake : (name ++ cstr ":.*").take ((name ++ cstr ":.*").length - 2) = name ++ [colon] := by
    rw [hregex, List.length_append, List.length_cons, List.length_singleton, Nat.add_sub_cancel]
    exact List.take_left' rfl
  unfold literalSearch
  rw [htake, decide_eq_true_eq]

def newJackMgrClient (name : CStr) : JackMgrClient where
  name := name
  id := 1
  patches := []
  oldPatches := []
  backupPatches := []

/-- Two synths and a sound card, to which one of the synths is connected. -/
def twoSynths : JackGraph where
  ports := [⟨cstr "synth", cstr "out", false⟩, ⟨cstr "mysynth", cstr "out", false⟩,
    ⟨cstr "system", cstr "in", true⟩]
  connections := [(⟨cstr "mysynth", cstr "out", false⟩, ⟨cstr "system", cstr "in", true⟩)]
  distinct := by decide +kernel
  source := by decide +kernel
  destination := by decide +kernel

/-- The synth with the longer name gets its patch. -/
theorem getPatches_iff_mysynth :
    (newJackMgrClient (cstr "mysynth")).name.all isOrdinary ∧
      ∃ client', getPatches literalSearch twoSynths (newJackMgrClient (cstr "mysynth")) =
        some client' ∧ client'.name = cstr "mysynth" ∧ OwnPatches twoSynths client' := by
  have hname : (newJackMgrClient (cstr "mysynth")).name.all isOrdinary := by decide +kernel
  obtain ⟨hiff, hordinary⟩ := getPatches_iff literalSearch_matchesOrdinary twoSynths
    (newJackMgrClient (cstr "mysynth"))
  have halone : Alone twoSynths (cstr "mysynth") := by decide +kernel
  exact ⟨hname, hiff.mpr ((hordinary hname).mpr halone)⟩

/-- The synth with the shorter name gets the patch of the other one, whatever does the search. -/
theorem patch_of_another :
    (∃ search, MatchesOrdinary search) ∧ ∀ search, MatchesOrdinary search →
      ¬ ∃ client', getPatches search twoSynths (newJackMgrClient (cstr "synth")) = some client' ∧
        client'.name = cstr "synth" ∧ OwnPatches twoSynths client' := by
  refine ⟨⟨literalSearch, literalSearch_matchesOrdinary⟩, ?_⟩
  intro search hsearch hown
  have hselects := (ownPatches_iff search twoSynths (newJackMgrClient (cstr "synth"))).mp hown
  have hname : (newJackMgrClient (cstr "synth")).name.all isOrdinary := by decide +kernel
  have hnot : ¬ Alone twoSynths (cstr "synth") := by decide +kernel
  exact hnot ((selects_iff_alone hsearch hname).mp hselects)

end Legacy

end Lash
