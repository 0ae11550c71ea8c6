import Lash.Alsa.Patch
import Lash.Jack.Legacy
import Lash.Text

/-!
# Patches in a project file

`lashd/jack_patch.c` and `lashd/alsa_patch.c`, for how a patch becomes an XML element and is read
back. An end of a patch is written as its id, or else as its client: a JACK end that has an id
loses its name, and an ALSA end that has one keeps the client number that the new patch had
(`patches_reread`).
-/

namespace Lash

open Legacy (patchDesc)

/-! ## Numbers -/

/-- `strtoul(s, NULL, 10)`: `ULONG_MAX` if the number does not fit, and a minus sign wraps around.
-/
def strtoul (s : CStr) : BitVec 64 :=
  match scanNumber s with
  | none => 0
  | some (n, _) => if 2 ^ 64 ≤ n.natAbs then BitVec.allOnes 64 else BitVec.ofInt 64 n

theorem strtoul_decimalInt {n : Int} (h : n.natAbs < 2 ^ 64) :
    strtoul (decimalInt n) = BitVec.ofInt 64 n := by
  rw [strtoul, scanNumber_decimalInt]
  dsimp only
  rw [if_neg (by omega)]

/-- An `int` that was printed with `%d` and is assigned to an `int` again. -/
theorem strtoul_int (x : BitVec 32) : (strtoul (decimalInt x.toInt)).setWidth 32 = x := by
  have hlt : x.toInt.natAbs < 2 ^ 64 := by
    have h1 := x.toInt_lt
    have h2 := x.le_toInt
    omega
  rw [strtoul_decimalInt hlt]
  apply BitVec.eq_of_toInt_eq
  rw [BitVec.toInt_setWidth, BitVec.toNat_ofInt]
  have hx := x.toInt_lt
  have hx' := x.le_toInt
  -- the number mod 2 ^ 64 is the number mod 2 ^ 32, which is the number again
  have hmod : ((x.toInt % (2 ^ 64 : Nat)).toNat : Int) = x.toInt % (2 ^ 64 : Nat) :=
    Int.toNat_of_nonneg (Int.emod_nonneg _ (by decide))
  rw [hmod, Int.bmod_def]
  omega

/-- `(unsigned char) strtoul(s, NULL, 10)` -/
def strtoulByte (s : CStr) : UInt8 := UInt8.ofBitVec ((strtoul s).setWidth 8)

/-- An `unsigned char` that was printed as an `int` and is assigned to an `unsigned char` again. -/
theorem strtoulByte_byte (x : UInt8) : strtoulByte (decimalInt x.toNat) = x := by
  have hlt : (x.toNat : Int).natAbs < 2 ^ 64 := by
    have := x.toNat_lt
    omega
  rw [strtoulByte, strtoul_decimalInt hlt]
  apply UInt8.toNat_inj.mp
  have hx := x.toNat_lt
  rw [UInt8.toNat_ofBitVec, BitVec.toNat_setWidth, BitVec.toNat_ofInt]
  omega

/-! ## Contents -/

theorem content_decimalInt (name : String) (n : Int) :
    (XmlNode.newChild name (some (decimalInt n))).getContent = decimalInt n := by
  rw [XmlNode.getContent_newChild, Option.getD_some,
    xmlText_eq_self.mpr (ampersand_not_mem_decimalInt n)]

theorem content_uuid (name : String) (id : Uuid) :
    (XmlNode.newChild name (some (uuidUnparse id))).getContent = uuidUnparse id := by
  rw [XmlNode.getContent_newChild, Option.getD_some,
    xmlText_eq_self.mpr (ampersand_not_mem_uuidUnparse id)]

/-! ## JACK -/

/-- `jack_patch_t`, with every string that it can lack. -/
structure JackPatchRecord where
  srcClient : Option CStr
  srcPort : Option CStr
  destClient : Option CStr
  destPort : Option CStr
  srcDesc : Option CStr
  destDesc : Option CStr
  srcClientId : Uuid
  destClientId : Uuid
  deriving DecidableEq

namespace JackPatchRecord

/-- `jack_patch_new` -/
def new : JackPatchRecord where
  srcClient := none
  srcPort := none
  destClient := none
  destPort := none
  srcDesc := none
  destDesc := none
  srcClientId := 0
  destClientId := 0

/-- `jack_patch_set_src_desc`; a patch without the port is a NULL pointer that is followed. -/
def setSrcDesc (patch : JackPatchRecord) : Option JackPatchRecord :=
  patch.srcPort.map (fun port =>
    { patch with srcDesc := some (patchDesc patch.srcClient patch.srcClientId port) })

/-- `jack_patch_set_dest_desc` -/
def setDestDesc (patch : JackPatchRecord) : Option JackPatchRecord :=
  patch.destPort.map (fun port =>
    { patch with destDesc := some (patchDesc patch.destClient patch.destClientId port) })

/-- `jack_patch_create_xml`: the child that the parent gets. -/
def createXml (patch : JackPatchRecord) : XmlNode :=
  .element (cstr "jack_patch")
    [if patch.srcClientId = 0 then .newChild "src_client" patch.srcClient
      else .newChild "src_client_id" (some (uuidUnparse patch.srcClientId)),
    .newChild "src_port" patch.srcPort,
    if patch.destClientId = 0 then .newChild "dest_client" patch.destClient
      else .newChild "dest_client_id" (some (uuidUnparse patch.destClientId)),
    .newChild "dest_port" patch.destPort]

/-- One turn of the loop of `jack_patch_parse_xml`. -/
def parseNode (patch : JackPatchRecord) (node : XmlNode) : JackPatchRecord :=
  if node.name = cstr "src_client" then { patch with srcClient := some node.getContent }
  else if node.name = cstr "src_client_id" then
    match uuidParse node.getContent with
    -- with a valid id the client name is always unset
    | some id => { patch with srcClientId := id, srcClient := none }
    | none => patch
  else if node.name = cstr "src_port" then { patch with srcPort := some node.getContent }
  else if node.name = cstr "dest_client" then { patch with destClient := some node.getContent }
  else if node.name = cstr "dest_client_id" then
    match uuidParse node.getContent with
    | some id => { patch with destClientId := id, destClient := none }
    | none => patch
  else if node.name = cstr "dest_port" then { patch with destPort := some node.getContent }
  else patch

/-- `jack_patch_parse_xml` -/
def parseXml (patch : JackPatchRecord) (parent : XmlNode) : Option JackPatchRecord :=
  (parent.children.foldl parseNode patch).setSrcDesc.bind setDestDesc

/-- Each end of a patch has an id or a name, and a port; what is written of them are XML texts
without `&`. -/
structure Written (patch : JackPatchRecord) : Prop where
  src : patch.srcClientId ≠ 0 ∨ ∃ name, patch.srcClient = some name ∧ ampersand ∉ name
  srcPort : ∃ port, patch.srcPort = some port ∧ ampersand ∉ port
  dest : patch.destClientId ≠ 0 ∨ ∃ name, patch.destClient = some name ∧ ampersand ∉ name
  destPort : ∃ port, patch.destPort = some port ∧ ampersand ∉ port

/-- The name of an end of a patch: an end with an id is that id, whatever it is called. -/
def endName (client : Option CStr) (id : Uuid) : Option CStr := if id = 0 then client else none

section

variable (patch : JackPatchRecord) (s : Option CStr) (id : Uuid)

theorem parseNode_srcClient :
    parseNode patch (.newChild "src_client" s)
      = { patch with srcClient := some (xmlText (s.getD [])) } := by
  rw [parseNode, if_pos (XmlNode.name_newChild _ _), XmlNode.getContent_newChild]

theorem parseNode_srcClientId :
    parseNode patch (.newChild "src_client_id" (some (uuidUnparse id)))
      = { patch with srcClientId := id, srcClient := none } := by
  have hname := XmlNode.name_newChild "src_client_id" (some (uuidUnparse id))
  rw [parseNode, if_neg (by rw [hname]; decide), if_pos hname, content_uuid,
    uuidParse_uuidUnparse]

theorem parseNode_srcPort :
    parseNode patch (.newChild "src_port" s)
      = { patch with srcPort := some (xmlText (s.getD [])) } := by
  have hname := XmlNode.name_newChild "src_port" s
  rw [parseNode, if_neg (by rw [hname]; decide), if_neg (by rw [hname]; decide), if_pos hname,
    XmlNode.getContent_newChild]

theorem parseNode_destClient :
    parseNode patch (.newChild "dest_client" s)
      = { patch with destClient := some (xmlText (s.getD [])) } := by
  have hname := XmlNode.name_newChild "dest_client" s
  rw [parseNode, if_neg (by rw [hname]; decide), if_neg (by rw [hname]; decide),
    if_neg (by rw [hname]; decide), if_pos hname, XmlNode.getContent_newChild]

theorem parseNode_destClientId :
    parseNode patch (.newChild "dest_client_id" (some (uuidUnparse id)))
      = { patch with destClientId := id, destClient := none } := by
  have hname := XmlNode.name_newChild "dest_client_id" (some (uuidUnparse id))
  rw [parseNode, if_neg (by rw [hname]; decide), if_neg (by rw [hname]; decide),
    if_neg (by rw [hname]; decide), if_neg (by rw [hname]; decide), if_pos hname,
    content_uuid, uuidParse_uuidUnparse]

theorem parseNode_destPort :
    parseNode patch (.newChild "dest_port" s)
      = { patch with destPort := some (xmlText (s.getD [])) } := by
  have hname := XmlNode.name_newChild "dest_port" s
  rw [parseNode, if_neg (by rw [hname]; decide), if_neg (by rw [hname]; decide),
    if_neg (by rw [hname]; decide), if_neg (by rw [hname]; decide), if_neg (by rw [hname]; decide),
    if_pos hname, XmlNode.getContent_newChild]

end

/-- A sender that is written and read back into a patch that has no id there yet. -/
theorem parseNode_src {patch q : JackPatchRecord} (h : patch.Written) (hid : q.srcClientId = 0) :
    parseNode q (if patch.srcClientId = 0 then .newChild "src_client" patch.srcClient
        else .newChild "src_client_id" (some (uuidUnparse patch.srcClientId)))
      = { q with
          srcClient := endName patch.srcClient patch.srcClientId
          srcClientId := patch.srcClientId } := by
  by_cases hnull : patch.srcClientId = 0
  · obtain ⟨name, hsome, hplain⟩ := h.src.resolve_left (not_not_intro hnull)
    rw [if_pos hnull, parseNode_srcClient, hsome, Option.getD_some, xmlText_eq_self.mpr hplain,
      endName, if_pos hnull, hnull, ← hid]
  · rw [if_neg hnull, parseNode_srcClientId, endName, if_neg hnull]

/-- The same for the destination. -/
theorem parseNode_dest {patch q : JackPatchRecord} (h : patch.Written) (hid : q.destClientId = 0) :
    parseNode q (if patch.destClientId = 0 then .newChild "dest_client" patch.destClient
        else .newChild "dest_client_id" (some (uuidUnparse patch.destClientId)))
      = { q with
          destClient := endName patch.destClient patch.destClientId
          destClientId := patch.destClientId } := by
  by_cases hnull : patch.destClientId = 0
  · obtain ⟨name, hsome, hplain⟩ := h.dest.resolve_left (not_not_intro hnull)
    rw [if_pos hnull, parseNode_destClient, hsome, Option.getD_some, xmlText_eq_self.mpr hplain,
      endName, if_pos hnull, hnull, ← hid]
  · rw [if_neg hnull, parseNode_destClientId, endName, if_neg hnull]

/-- A JACK patch that is written and read back into a new one. -/
theorem parseXml_createXml {patch : JackPatchRecord} (h : patch.Written) :
    parseXml new (createXml patch) = some
      { patch with
        srcClient := endName patch.srcClient patch.srcClientId
        destClient := endName patch.destClient patch.destClientId
        srcDesc := patch.srcPort.map
          (patchDesc (endName patch.srcClient patch.srcClientId) patch.srcClientId)
        destDesc := patch.destPort.map
          (patchDesc (endName patch.destClient patch.destClientId) patch.destClientId) } := by
  obtain ⟨sport, hsport, hsplain⟩ := h.srcPort
  obtain ⟨dport, hdport, hdplain⟩ := h.destPort
  rw [parseXml, createXml, XmlNode.children, List.foldl_cons, List.foldl_cons, List.foldl_cons,
    List.foldl_cons, List.foldl_nil, parseNode_src h rfl, parseNode_srcPort,
    parseNode_dest h rfl, parseNode_destPort, hsport, hdport, Option.getD_some, Option.getD_some,
    xmlText_eq_self.mpr hsplain, xmlText_eq_self.mpr hdplain]
  rfl

end JackPatchRecord

/-! ## ALSA -/

namespace SubPatch

variable {σ : Type} (api : SubscribeApi σ)

/-- `alsa_patch_create_xml`: the child that the parent gets. -/
def createXml (patch : SubPatch σ) : XmlNode :=
  .element (cstr "alsa_patch")
    [if patch.srcId = 0 then
        .newChild "src_client" (some (decimalInt (api.get patch.sub).sender.client.toNat))
      else .newChild "src_client_id" (some (uuidUnparse patch.srcId)),
    .newChild "src_port" (some (decimalInt (api.get patch.sub).sender.port.toNat)),
    if patch.destId = 0 then
        .newChild "dest_client" (some (decimalInt (api.get patch.sub).dest.client.toNat))
      else .newChild "dest_client_id" (some (uuidUnparse patch.destId)),
    .newChild "dest_port" (some (decimalInt (api.get patch.sub).dest.port.toNat)),
    .newChild "queue" (some (decimalInt (api.get patch.sub).queue.toInt)),
    .newChild "exclusive" (some (decimalInt (api.get patch.sub).exclusive.toInt)),
    .newChild "time_update" (some (decimalInt (api.get patch.sub).timeUpdate.toInt)),
    .newChild "time_real" (some (decimalInt (api.get patch.sub).timeReal.toInt))]

/-- One turn of the loop of `alsa_patch_parse_xml`. Setting the client of an address keeps its
port, and setting the port keeps the client. -/
def parseNode (patch : SubPatch σ) (node : XmlNode) : SubPatch σ :=
  if node.name = cstr "src_client" then
    { patch with
      sub := api.setSender patch.sub
        ⟨strtoulByte node.getContent, (api.get patch.sub).sender.port⟩ }
  else if node.name = cstr "src_client_id" then
    { patch with srcId := (uuidParse node.getContent).getD patch.srcId }
  else if node.name = cstr "src_port" then
    { patch with
      sub := api.setSender patch.sub ⟨(api.get patch.sub).sender.client,
        strtoulByte node.getContent⟩ }
  else if node.name = cstr "dest_client" then
    { patch with
      sub := api.setDest patch.sub ⟨strtoulByte node.getContent, (api.get patch.sub).dest.port⟩ }
  else if node.name = cstr "dest_client_id" then
    { patch with destId := (uuidParse node.getContent).getD patch.destId }
  else if node.name = cstr "dest_port" then
    { patch with
      sub := api.setDest patch.sub ⟨(api.get patch.sub).dest.client, strtoulByte node.getContent⟩ }
  else if node.name = cstr "queue" then
    { patch with sub := api.setQueue patch.sub ((strtoul node.getContent).setWidth 32) }
  else if node.name = cstr "exclusive" then
    { patch with sub := api.setExclusive patch.sub ((strtoul node.getContent).setWidth 32) }
  else if node.name = cstr "time_update" then
    { patch with sub := api.setTimeUpdate patch.sub ((strtoul node.getContent).setWidth 32) }
  else if node.name = cstr "time_real" then
    { patch with sub := api.setTimeReal patch.sub ((strtoul node.getContent).setWidth 32) }
  else patch

/-- `alsa_patch_parse_xml` -/
def parseXml (patch : SubPatch σ) (parent : XmlNode) : SubPatch σ :=
  parent.children.foldl (parseNode api) patch

section

variable (q patch : SubPatch σ) (id : Uuid) (x : BitVec 32) (b : UInt8)

theorem parseNode_src :
    parseNode api q (if patch.srcId = 0 then .newChild "src_client" (some (decimalInt b.toNat))
        else .newChild "src_client_id" (some (uuidUnparse patch.srcId)))
      = if patch.srcId =
        0 then { q with sub := api.setSender q.sub ⟨b, (api.get q.sub).sender.port⟩ }
        else { q with srcId := patch.srcId } := by
  split_ifs with hnull
  · rw [parseNode, if_pos (XmlNode.name_newChild _ _), content_decimalInt, strtoulByte_byte]
  · have hname := XmlNode.name_newChild "src_client_id" (some (uuidUnparse patch.srcId))
    rw [parseNode, if_neg (by rw [hname]; decide), if_pos hname, content_uuid,
      uuidParse_uuidUnparse, Option.getD_some]

theorem parseNode_srcPort :
    parseNode api q (.newChild "src_port" (some (decimalInt b.toNat)))
      = { q with sub := api.setSender q.sub ⟨(api.get q.sub).sender.client, b⟩ } := by
  have hname := XmlNode.name_newChild "src_port" (some (decimalInt b.toNat))
  rw [parseNode, if_neg (by rw [hname]; decide), if_neg (by rw [hname]; decide), if_pos hname,
    content_decimalInt, strtoulByte_byte]

theorem parseNode_dest :
    parseNode api q (if patch.destId = 0 then .newChild "dest_client" (some (decimalInt b.toNat))
        else .newChild "dest_client_id" (some (uuidUnparse patch.destId)))
      = if patch.destId = 0 then { q with sub := api.setDest q.sub ⟨b, (api.get q.sub).dest.port⟩ }
        else { q with destId := patch.destId } := by
  split_ifs with hnull
  · have hname := XmlNode.name_newChild "dest_client" (some (decimalInt b.toNat))
    rw [parseNode, if_neg (by rw [hname]; decide), if_neg (by rw [hname]; decide),
      if_neg (by rw [hname]; decide), if_pos hname, content_decimalInt, strtoulByte_byte]
  · have hname := XmlNode.name_newChild "dest_client_id" (some (uuidUnparse patch.destId))
    rw [parseNode, if_neg (by rw [hname]; decide), if_neg (by rw [hname]; decide),
      if_neg (by rw [hname]; decide), if_neg (by rw [hname]; decide), if_pos hname, content_uuid,
      uuidParse_uuidUnparse, Option.getD_some]

theorem parseNode_destPort :
    parseNode api q (.newChild "dest_port" (some (decimalInt b.toNat)))
      = { q with sub := api.setDest q.sub ⟨(api.get q.sub).dest.client, b⟩ } := by
  have hname := XmlNode.name_newChild "dest_port" (some (decimalInt b.toNat))
  rw [parseNode, if_neg (by rw [hname]; decide), if_neg (by rw [hname]; decide),
    if_neg (by rw [hname]; decide), if_neg (by rw [hname]; decide), if_neg (by rw [hname]; decide),
    if_pos hname, content_decimalInt, strtoulByte_byte]

theorem parseNode_queue :
    parseNode api q (.newChild "queue" (some (decimalInt x.toInt)))
      = { q with sub := api.setQueue q.sub x } := by
  have hname := XmlNode.name_newChild "queue" (some (decimalInt x.toInt))
  rw [parseNode, if_neg (by rw [hname]; decide), if_neg (by rw [hname]; decide),
    if_neg (by rw [hname]; decide), if_neg (by rw [hname]; decide), if_neg (by rw [hname]; decide),
    if_neg (by rw [hname]; decide), if_pos hname, content_decimalInt, strtoul_int]

theorem parseNode_exclusive :
    parseNode api q (.newChild "exclusive" (some (decimalInt x.toInt)))
      = { q with sub := api.setExclusive q.sub x } := by
  have hname := XmlNode.name_newChild "exclusive" (some (decimalInt x.toInt))
  rw [parseNode, if_neg (by rw [hname]; decide), if_neg (by rw [hname]; decide),
    if_neg (by rw [hname]; decide), if_neg (by rw [hname]; decide), if_neg (by rw [hname]; decide),
    if_neg (by rw [hname]; decide), if_neg (by rw [hname]; decide), if_pos hname,
      content_decimalInt,
    strtoul_int]

theorem parseNode_timeUpdate :
    parseNode api q (.newChild "time_update" (some (decimalInt x.toInt)))
      = { q with sub := api.setTimeUpdate q.sub x } := by
  have hname := XmlNode.name_newChild "time_update" (some (decimalInt x.toInt))
  rw [parseNode, if_neg (by rw [hname]; decide), if_neg (by rw [hname]; decide),
    if_neg (by rw [hname]; decide), if_neg (by rw [hname]; decide), if_neg (by rw [hname]; decide),
    if_neg (by rw [hname]; decide), if_neg (by rw [hname]; decide), if_neg (by rw [hname]; decide),
    if_pos hname, content_decimalInt, strtoul_int]

theorem parseNode_timeReal :
    parseNode api q (.newChild "time_real" (some (decimalInt x.toInt)))
      = { q with sub := api.setTimeReal q.sub x } := by
  have hname := XmlNode.name_newChild "time_real" (some (decimalInt x.toInt))
  rw [parseNode, if_neg (by rw [hname]; decide), if_neg (by rw [hname]; decide),
    if_neg (by rw [hname]; decide), if_neg (by rw [hname]; decide), if_neg (by rw [hname]; decide),
    if_neg (by rw [hname]; decide), if_neg (by rw [hname]; decide), if_neg (by rw [hname]; decide),
    if_neg (by rw [hname]; decide), if_pos hname, content_decimalInt, strtoul_int]

end

/-- The client that a written end has after it was read back: its own, unless the end has an id.
Then it is the one that the patch was made with. -/
def endClient (id : Uuid) (written made : UInt8) : UInt8 := if id = 0 then written else made

/-- What can be asked of a patch: its ids, and what the accessors say about its subscription. -/
structure Shows (q : SubPatch σ) (srcId destId : Uuid) (s : AlsaSubscription) : Prop where
  srcId : q.srcId = srcId
  destId : q.destId = destId
  sub : api.get q.sub = s

section

variable {api} {q : SubPatch σ} {srcId destId : Uuid} {s : AlsaSubscription}

theorem Shows.src (hapi : api.Lawful) (h : Shows api q 0 destId s) (patch : SubPatch σ)
    (b : UInt8) :
    Shows api
      (parseNode api q (if patch.srcId = 0 then .newChild "src_client" (some (decimalInt b.toNat))
        else .newChild "src_client_id" (some (uuidUnparse patch.srcId))))
      patch.srcId destId
      { s with sender := ⟨endClient patch.srcId b s.sender.client, s.sender.port⟩ } := by
  rw [parseNode_src, endClient]
  split_ifs with hnull
  · exact ⟨h.srcId.trans hnull.symm, h.destId, by rw [hapi.sender, h.sub]⟩
  · exact ⟨rfl, h.destId, h.sub⟩

theorem Shows.srcPort (hapi : api.Lawful) (h : Shows api q srcId destId s) (b : UInt8) :
    Shows api (parseNode api q (.newChild "src_port" (some (decimalInt b.toNat)))) srcId destId
      { s with sender := ⟨s.sender.client, b⟩ } := by
  rw [parseNode_srcPort]
  exact ⟨h.srcId, h.destId, by rw [hapi.sender, h.sub]⟩

theorem Shows.dest (hapi : api.Lawful) (h : Shows api q srcId 0 s) (patch : SubPatch σ)
    (b : UInt8) :
    Shows api
      (parseNode api q (if patch.destId = 0 then .newChild "dest_client" (some (decimalInt b.toNat))
        else .newChild "dest_client_id" (some (uuidUnparse patch.destId))))
      srcId patch.destId
      { s with dest := ⟨endClient patch.destId b s.dest.client, s.dest.port⟩ } := by
  rw [parseNode_dest, endClient]
  split_ifs with hnull
  · exact ⟨h.srcId, h.destId.trans hnull.symm, by rw [hapi.dest, h.sub]⟩
  · exact ⟨h.srcId, rfl, h.sub⟩

theorem Shows.destPort (hapi : api.Lawful) (h : Shows api q srcId destId s) (b : UInt8) :
    Shows api (parseNode api q (.newChild "dest_port" (some (decimalInt b.toNat)))) srcId destId
      { s with dest := ⟨s.dest.client, b⟩ } := by
  rw [parseNode_destPort]
  exact ⟨h.srcId, h.destId, by rw [hapi.dest, h.sub]⟩

/-- The attributes are set to what they are in a subscription. -/
theorem Shows.attributes (hapi : api.Lawful) (h : Shows api q srcId destId s) (t : σ) :
    Shows api
      ([.newChild "queue" (some (decimalInt (api.get t).queue.toInt)),
        .newChild "exclusive" (some (decimalInt (api.get t).exclusive.toInt)),
        .newChild "time_update" (some (decimalInt (api.get t).timeUpdate.toInt)),
        .newChild "time_real" (some (decimalInt (api.get t).timeReal.toInt))].foldl
          (parseNode api) q) srcId destId
      { api.get t with sender := s.sender, dest := s.dest } := by
  rw [List.foldl_cons, parseNode_queue, List.foldl_cons, parseNode_exclusive, List.foldl_cons,
    parseNode_timeUpdate, List.foldl_cons, parseNode_timeReal, List.foldl_nil]
  exact ⟨h.srcId, h.destId, by
    rw [hapi.timeReal, hapi.timeUpdate, hapi.exclusive, hapi.queue, h.sub]⟩

end

/-- An ALSA patch that is written and read back into a new one. -/
theorem parseXml_createXml (hapi : api.Lawful) (patch : SubPatch σ) :
    Shows api (parseXml api (new api) (createXml api patch)) patch.srcId patch.destId
      { api.get patch.sub with
        sender := ⟨endClient patch.srcId (api.get patch.sub).sender.client
          (api.get api.malloc).sender.client, (api.get patch.sub).sender.port⟩
        dest := ⟨endClient patch.destId (api.get patch.sub).dest.client
          (api.get api.malloc).dest.client, (api.get patch.sub).dest.port⟩ } := by
  have hnew : Shows api (new api) 0 0 (api.get api.malloc) := ⟨rfl, rfl, rfl⟩
  have hsrc := (hnew.src hapi patch (api.get patch.sub).sender.client).srcPort hapi
    (api.get patch.sub).sender.port
  have hdest := (hsrc.dest hapi patch (api.get patch.sub).dest.client).destPort hapi
    (api.get patch.sub).dest.port
  exact hdest.attributes hapi patch.sub

end SubPatch

/-! ## Both -/

/-- **A patch is read back as it was written**: with the same ids, ports and attributes, and the
same client wherever it has no id. -/
theorem patches_reread {σ : Type} {api : SubscribeApi σ} (hapi : api.Lawful) :
    (∀ patch : JackPatchRecord, patch.Written →
      JackPatchRecord.parseXml .new patch.createXml = some
        { patch with
          srcClient := JackPatchRecord.endName patch.srcClient patch.srcClientId
          destClient := JackPatchRecord.endName patch.destClient patch.destClientId
          srcDesc := patch.srcPort.map (patchDesc
            (JackPatchRecord.endName patch.srcClient patch.srcClientId) patch.srcClientId)
          destDesc := patch.destPort.map (patchDesc
            (JackPatchRecord.endName patch.destClient patch.destClientId) patch.destClientId) }) ∧
    ∀ patch : SubPatch σ,
      SubPatch.Shows api (SubPatch.parseXml api (.new api) (patch.createXml api))
        patch.srcId patch.destId
        { api.get patch.sub with
          sender := ⟨SubPatch.endClient patch.srcId (api.get patch.sub).sender.client
            (api.get api.malloc).sender.client, (api.get patch.sub).sender.port⟩
          dest := ⟨SubPatch.endClient patch.destId (api.get patch.sub).dest.client
            (api.get api.malloc).dest.client, (api.get patch.sub).dest.port⟩ } :=
  ⟨fun _ h => JackPatchRecord.parseXml_createXml h, SubPatch.parseXml_createXml api hapi⟩

/-- A JACK patch from a port of a client to a port of a saved one. -/
def soundPatch : JackPatchRecord where
  srcClient := some (cstr "system")
  srcPort := some (cstr "capture_1")
  destClient := none
  destPort := some (cstr "in")
  srcDesc := some (cstr "system:capture_1")
  destDesc := none
  srcClientId := 0
  destClientId := 5

/-- An ALSA patch from port 1 of client 128 to a port of a saved one. -/
def midiPatch : SubPatch PortSubscribe where
  sub := ⟨⟨128, 1⟩, ⟨129, 0⟩, 3, true, false, true⟩
  srcId := 0
  destId := 5

theorem soundPatch_written : soundPatch.Written where
  src := .inr ⟨cstr "system", rfl, by decide⟩
  srcPort := ⟨cstr "capture_1", rfl, by decide⟩
  dest := .inl (by decide)
  destPort := ⟨cstr "in", rfl, by decide⟩

/-- The patches of a project: the names, the ports and the ids are back. -/
theorem patches_reread_two :
    JackPatchRecord.parseXml .new soundPatch.createXml = some
      { soundPatch with destDesc := some (cstr "00000000-0000-0000-0000-000000000005:in") } ∧
    SubPatch.Shows portSubscribeApi
      (SubPatch.parseXml portSubscribeApi (.new portSubscribeApi)
      (midiPatch.createXml portSubscribeApi))
      0 5 ⟨⟨128, 1⟩, ⟨0, 0⟩, 3, 1, 0, 1⟩ := by
  obtain ⟨hjack, halsa⟩ := patches_reread portSubscribeApi_lawful
  exact ⟨(hjack soundPatch soundPatch_written).trans (by decide +kernel), halsa midiPatch⟩

end Lash
