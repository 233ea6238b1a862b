import NyanyaAgent.Relational.Tiling
import NyanyaAgent.Relational.Transaction
import NyanyaAgent.Uploads.OfficeZip
import Mathlib.Data.List.TakeWhile

/-!
# No uninspected bytes in a package

The records of an accepted package lie one behind the other from its first byte to its last, and
the data of every member are those that were inspected.
-/
namespace NyanyaAgent.Safety
open NyanyaAgent.Relational NyanyaAgent.Office

variable {P : Platform} {data : Bytes} {info : ZipInfo} {members : List ZipInfo}

/-- The two ranges of a member: its local header and its data. -/
def localRanges (data : Bytes) (info : ZipInfo) : List (ℕ × ℕ) :=
  [(info.headerOffset, dataStart data info.headerOffset),
    (dataStart data info.headerOffset, dataStart data info.headerOffset + info.compressSize)]

/-- A local record agrees with the record of the central directory. -/
structure LocalAgrees (P : Platform) (data : Bytes) (info : ZipInfo) : Prop where
  mark : slice data info.headerOffset (info.headerOffset + 4) = localMark
  flags : unpackH data (info.headerOffset + 6) = info.flagBits
  method : unpackH data (info.headerOffset + 8) = info.compressType
  crc : unpackI data (info.headerOffset + 14) = info.crc
  compressed : unpackI data (info.headerOffset + 18) = info.compressSize
  uncompressed : unpackI data (info.headerOffset + 22) = info.fileSize
  extra : unpackH data (info.headerOffset + 28) = 0
  name : decodeName P info.flagBits (slice data (info.headerOffset + 30)
    (dataStart data info.headerOffset)) = .ok info.origFilename

/-- A range is the record of a member in the central directory. -/
structure CentralAgrees (data : Bytes) (info : ZipInfo) (range : ℕ × ℕ) : Prop where
  mark : slice data range.1 (range.1 + 4) = centralMark
  offset : unpackI data (range.1 + 42) = info.headerOffset
  extra : unpackH data (range.1 + 30) = 0
  length : range.2 = range.1 + recordLength data range.1

section Loops

theorem centralLoop_tiles {stop cursor cursor' : ℕ}
    (h : centralLoop data stop members cursor = .ok cursor') :
    ∃ records, Tiles cursor records cursor' ∧
      List.Forall₂ (CentralAgrees data) members records := by
  induction members generalizing cursor with
  | nil =>
    cases h
    exact ⟨[], .nil _, .nil⟩
  | cons info members ih =>
    rw [centralLoop] at h
    split_ifs at h with hmark hfields hbound
    obtain ⟨records, htiles, hagree⟩ := ih h
    rw [not_or, not_not] at hmark
    rw [not_or, not_or, not_not, not_not, not_not] at hfields
    obtain ⟨-, hextra, hoffset⟩ := hfields
    exact ⟨(cursor, cursor + recordLength data cursor) :: records,
      .cons (Nat.le_add_right _ _) htiles, .cons ⟨hmark.2, hoffset, hextra, rfl⟩ hagree⟩

theorem localRecord_spec {centralOffset cursor : ℕ} {range : ℕ × ℕ}
    (h : localRecord P data centralOffset cursor info = .ok range) :
    info.headerOffset = cursor ∧ LocalAgrees P data info ∧
      range = (dataStart data info.headerOffset,
        dataStart data info.headerOffset + info.compressSize) := by
  unfold localRecord at h
  simp only at h
  split_ifs at h with hgap hfields hbound
  obtain ⟨name, hname, h⟩ := bind_eq_ok.mp h
  split_ifs at h with horig
  rw [not_or, not_or, not_not, not_not] at hgap
  simp only [not_or, not_not] at hfields
  rw [not_not] at horig
  obtain ⟨-, hflags, hmethod, hextra, hcompressed, huncompressed, hcrc⟩ := hfields
  subst horig
  rw [hflags] at hname
  exact ⟨hgap.1, ⟨hgap.2.2, hflags, hmethod, hcrc, hcompressed, huncompressed, hextra, hname⟩,
    (Except.ok.inj h).symm⟩

theorem localRanges_tiles (data : Bytes) (info : ZipInfo) :
    Tiles info.headerOffset (localRanges data info)
      (dataStart data info.headerOffset + info.compressSize) := by
  refine .cons ?_ (.single (Nat.le_add_right _ _))
  unfold dataStart
  omega

/-- The local records lie one behind the other, and the range of every member is that of its
own record. -/
theorem localLoop_spec {centralOffset cursor cursor' : ℕ} {ranges ranges' : Ranges}
    (h : localLoop P data centralOffset members cursor ranges = .ok (ranges', cursor')) :
    Tiles cursor (members.flatMap (localRanges data)) cursor' ∧
      (∀ info ∈ members, LocalAgrees P data info) ∧
      (∀ name, name ∉ members.map (·.filename) → ranges' name = ranges name) ∧
      ((members.map (·.filename)).Nodup → ∀ info ∈ members, ranges' info.filename =
        some (dataStart data info.headerOffset,
          dataStart data info.headerOffset + info.compressSize)) := by
  induction members generalizing cursor ranges with
  | nil =>
    cases h
    exact ⟨.nil _, fun info hinfo => absurd hinfo List.not_mem_nil, fun _ _ => rfl,
      fun _ info hinfo => absurd hinfo List.not_mem_nil⟩
  | cons info members ih =>
    rw [localLoop] at h
    obtain ⟨range, hrange, h⟩ := bind_eq_ok.mp h
    obtain ⟨hoffset, hagrees, hvalue⟩ := localRecord_spec hrange
    obtain ⟨htiles, hall, hother, hown⟩ := ih h
    subst hvalue
    refine ⟨?_, List.forall_mem_cons.mpr ⟨hagrees, hall⟩, fun name hname => ?_, fun honce => ?_⟩
    · rw [List.flatMap_cons, ← hoffset]
      exact (localRanges_tiles data info).append htiles
    · rw [List.map_cons, List.mem_cons, not_or] at hname
      rw [hother name hname.2, Function.update_of_ne hname.1]
    · rw [List.map_cons, List.nodup_cons] at honce
      refine List.forall_mem_cons.mpr ⟨?_, hown honce.2⟩
      rw [hother _ honce.1, Function.update_self]

end Loops

section Members

theorem readRecord_filename {directory : Bytes} {total start centralOffset : ℕ}
    (h : readRecord P directory total start centralOffset = .ok info) :
    info.filename = info.origFilename.takeWhile fun c => c ≠ Char.ofNat 0 := by
  unfold readRecord at h
  split_ifs at h
  · obtain ⟨name, -, h⟩ := bind_eq_ok.mp h
    cases h
  · obtain ⟨name, -, h⟩ := bind_eq_ok.mp h
    cases h
    rfl

theorem readRecords_filename {directory : Bytes} {start centralOffset rounds total : ℕ}
    (h : readRecords P directory start centralOffset rounds total = .ok members) :
    ∀ info ∈ members,
      info.filename = info.origFilename.takeWhile fun c => c ≠ Char.ofNat 0 := by
  induction rounds generalizing total members with
  | zero =>
    cases h
    exact fun info hinfo => absurd hinfo List.not_mem_nil
  | succ rounds ih =>
    rw [readRecords] at h
    split_ifs at h with hend
    · cases h
      exact fun info hinfo => absurd hinfo List.not_mem_nil
    · obtain ⟨info, hinfo, h⟩ := bind_eq_ok.mp h
      obtain ⟨infos, hinfos, rfl⟩ := map_eq_ok.mp h
      exact List.forall_mem_cons.mpr ⟨readRecord_filename hinfo, ih hinfos⟩

/-- What the checks of a member leave of it. -/
structure MemberFacts (P : Platform) (info : ZipInfo) : Prop where
  name : Char.ofNat 0 ∉ info.origFilename
  method : info.compressType = 0 ∨ info.compressType = 8
  directory : info.isDir = true →
    info.fileSize = 0 ∧ info.compressSize = 0 ∧ info.crc = 0 ∧ info.compressType = 0
  part : info.isDir = false → xmlName P info.origFilename = true

theorem badPath_clear {name : List Char} {seen : List (List Char)}
    (h : ¬ badPath P name seen = true) : Char.ofNat 0 ∉ name ∧ P.casefold name ∉ seen := by
  unfold badPath at h
  simp only [Bool.or_eq_true, decide_eq_true_eq, not_or, List.any_eq_true, not_exists,
    not_and] at h
  obtain ⟨⟨⟨⟨⟨⟨⟨⟨⟨_, _⟩, hnull⟩, _⟩, _⟩, _⟩, _⟩, _⟩, hseen⟩, _⟩ := h
  exact ⟨hnull, fun hmem => hseen _ hmem rfl⟩

theorem checkMember_spec {seen : List (List Char)} {total total' : ℕ}
    (h : checkMember P info seen total = .ok total') :
    MemberFacts P info ∧ P.casefold info.origFilename ∉ seen := by
  unfold checkMember at h
  split_ifs at h with hpath hlink hmethod hmedia hdir hempty hxml hsize hratio
  · obtain ⟨hnull, hseen⟩ := badPath_clear hpath
    simp only [not_or, not_not] at hempty
    exact ⟨⟨hnull, .inl hempty.2.2.2, fun _ => hempty, fun hnot => by simp [hdir] at hnot⟩, hseen⟩
  · obtain ⟨hnull, hseen⟩ := badPath_clear hpath
    rw [not_or, not_and_or, not_not, not_not] at hmethod
    exact ⟨⟨hnull, hmethod.2.imp_right not_not.mp, fun hyes => absurd hyes hdir,
      fun _ => Bool.not_eq_false _ ▸ hxml⟩, hseen⟩

theorem checkMembers_spec {seen : List (List Char)} {total : ℕ}
    (h : checkMembers P members seen total = .ok ()) :
    (∀ info ∈ members, MemberFacts P info) ∧
      (members.map fun info => P.casefold info.origFilename).Nodup ∧
      ∀ info ∈ members, P.casefold info.origFilename ∉ seen := by
  induction members generalizing seen total with
  | nil =>
    exact ⟨fun info hinfo => absurd hinfo List.not_mem_nil, .nil,
      fun info hinfo => absurd hinfo List.not_mem_nil⟩
  | cons info members ih =>
    rw [checkMembers] at h
    obtain ⟨total', hmember, h⟩ := bind_eq_ok.mp h
    obtain ⟨hfacts, hnew⟩ := checkMember_spec hmember
    obtain ⟨hall, honce, hseen⟩ := ih h
    refine ⟨List.forall_mem_cons.mpr ⟨hfacts, hall⟩, ?_,
      List.forall_mem_cons.mpr ⟨hnew, fun info' hinfo' hmem => ?_⟩⟩
    · rw [List.map_cons, List.nodup_cons]
      refine ⟨fun hmem => ?_, honce⟩
      obtain ⟨info', hinfo', heq⟩ := List.mem_map.mp hmem
      exact hseen info' hinfo' (heq ▸ List.mem_cons_self)
    · exact hseen info' hinfo' (List.mem_cons_of_mem _ hmem)

theorem filenames_nodup (honce : (members.map fun info => P.casefold info.origFilename).Nodup)
    (hname : ∀ info ∈ members, info.filename = info.origFilename) :
    (members.map (·.filename)).Nodup := by
  have hfolded : (members.map (·.filename)).map P.casefold =
      members.map fun info => P.casefold info.origFilename := by
    rw [List.map_map]
    exact List.map_congr_left fun info hinfo => congrArg P.casefold (hname info hinfo)
  rw [← hfolded] at honce
  exact honce.of_map

end Members

section Parts

/-- The bytes of a member. -/
def memberBytes (data : Bytes) (info : ZipInfo) : Bytes :=
  slice data (dataStart data info.headerOffset)
    (dataStart data info.headerOffset + info.compressSize)

/-- The content of a member: its bytes, or what the one stream that they are holds; its size and
its checksum are the recorded ones. -/
structure MemberContent (P : Platform) (data : Bytes) (info : ZipInfo) (content : Bytes) :
    Prop where
  stream : info.compressType = 0 ∧ content = memberBytes data info ∨
    info.compressType = 8 ∧ P.Deflated (memberBytes data info) content
  size : content.length = info.fileSize
  checksum : P.crc32 content = info.crc

def EmptyDirectory (info : ZipInfo) : Prop :=
  info.isDir = true ∧ info.compressSize = 0 ∧ info.fileSize = 0

/-- An XML part whose whole content is read, and whose views are among those inspected. -/
structure InspectedPart (P : Platform) (data : Bytes) (info : ZipInfo)
    (views : List (List Char)) : Prop where
  file : info.isDir = false
  name : xmlName P info.origFilename = true
  inspected : ∃ content raw root own, MemberContent P data info content ∧
    parseXml P content = .ok (raw, root) ∧ xmlViews P raw root = .ok own ∧ own <:+: views

theorem readZipXml_spec {content : Bytes} (hmethod : info.compressType = 0 ∨ info.compressType = 8)
    (h : readZipXml P data info (dataStart data info.headerOffset,
      dataStart data info.headerOffset + info.compressSize) = .ok content) :
    MemberContent P data info content := by
  unfold readZipXml at h
  obtain ⟨content', hcontent, h⟩ := bind_eq_ok.mp h
  split_ifs at h with hbound
  cases h
  simp only [not_or, not_not] at hbound
  refine ⟨?_, hbound.1, hbound.2.2⟩
  split_ifs at hcontent with hstored
  · exact .inl ⟨hstored, (Except.ok.inj hcontent).symm⟩
  · obtain ⟨r, hr, hcontent⟩ := bind_eq_ok.mp hcontent
    split_ifs at hcontent with hleft
    simp only [not_or, not_not] at hleft
    obtain ⟨htail, heof, hunused⟩ := hleft
    cases hcontent
    obtain ⟨stream, hstream, hdeflated⟩ := P.decompress_eof _ _ r hr (by simpa using heof) htail
    rw [hunused, List.append_nil] at hstream
    refine .inr ⟨hmethod.resolve_left hstored, ?_⟩
    rw [← hstream] at hdeflated
    exact hdeflated

theorem memberViews_spec {main expectedRoot : List Char} {names : List (List Char)}
    {ranges : Ranges} {own views : List (List Char)} (hfacts : MemberFacts P info)
    (hrange : ranges info.filename = some (dataStart data info.headerOffset,
      dataStart data info.headerOffset + info.compressSize))
    (h : memberViews P data main expectedRoot names ranges info = .ok own)
    (hviews : own <:+: views) : EmptyDirectory info ∨ InspectedPart P data info views := by
  unfold memberViews at h
  obtain ⟨comment, -, h⟩ := bind_eq_ok.mp h
  obtain ⟨part, hpart, rfl⟩ := map_eq_ok.mp h
  by_cases hdir : info.isDir = true
  · obtain ⟨hsize, hcompressed, -, -⟩ := hfacts.directory hdir
    exact .inl ⟨hdir, hcompressed, hsize⟩
  · have hfile : info.isDir = false := by simpa using hdir
    rw [if_neg hdir, partViews, hrange] at hpart
    obtain ⟨content, hcontent, hpart⟩ := bind_eq_ok.mp hpart
    obtain ⟨⟨raw, root⟩, hparse, hpart⟩ := bind_eq_ok.mp hpart
    obtain ⟨-, -, hpart⟩ := bind_eq_ok.mp hpart
    have hwithin : part <:+: info.origFilename :: comment :: part :=
      ⟨[info.origFilename, comment], [], by simp⟩
    exact .inr ⟨hfile, hfacts.part hfile, content, raw, root, part,
      readZipXml_spec hfacts.method hcontent, hparse, hpart, hwithin.trans hviews⟩

theorem membersViews_spec {main expectedRoot : List Char} {names : List (List Char)}
    {ranges : Ranges} {views : List (List Char)}
    (h : membersViews P data main expectedRoot names ranges members = .ok views) :
    ∀ info ∈ members, ∃ own, memberViews P data main expectedRoot names ranges info = .ok own ∧
      own <:+: views := by
  induction members generalizing views with
  | nil => exact fun info hinfo => absurd hinfo List.not_mem_nil
  | cons info members ih =>
    rw [membersViews] at h
    obtain ⟨own, hown, h⟩ := bind_eq_ok.mp h
    obtain ⟨rest, hrest, rfl⟩ := map_eq_ok.mp h
    refine List.forall_mem_cons.mpr ⟨⟨own, hown, (List.prefix_append own rest).isInfix⟩, ?_⟩
    intro info' hinfo'
    obtain ⟨own', hown', hwithin⟩ := ih hrest info' hinfo'
    exact ⟨own', hown', hwithin.trans (List.suffix_append own rest).isInfix⟩

end Parts

section Package

theorem rfind_spec {mark : Bytes} {i : ℕ} (h : rfind mark data = some i) :
    mark <+: data.drop i := by
  induction data generalizing i with
  | nil => cases h
  | cons b data ih =>
    rw [rfind] at h
    cases hrest : rfind mark data with
    | some j =>
      rw [hrest] at h
      cases h
      exact ih hrest
    | none =>
      rw [hrest] at h
      simp only at h
      split_ifs at h with hmark
      cases h
      exact List.isPrefixOf_iff_prefix.mp hmark

theorem endRecord_spec {e : EndRecord} (h : endRecord data = .ok e) :
    slice data e.location (e.location + 4) = endMark ∧
      e.location + 22 + e.commentLength = data.length := by
  unfold endRecord at h
  split_ifs at h
  cases hfind : rfind endMark data with
  | none =>
    rw [hfind] at h
    cases h
  | some location =>
    rw [hfind] at h
    simp only at h
    split_ifs at h with hbound hfields
    cases h
    simp only [not_or, not_not] at hfields
    refine ⟨?_, hfields.2.2.2⟩
    have hstart := List.prefix_iff_eq_take.mp (rfind_spec hfind)
    have hlength : endMark.length = 4 := rfl
    rw [hlength] at hstart
    rw [slice, List.drop_take, Nat.add_sub_cancel_left]
    exact hstart.symm

/-- The records of a package whose members are covered. -/
theorem coveredZip_spec {e : EndRecord} {ranges : Ranges}
    (h : coveredZip P data e members = .ok ranges) :
    Tiles 0 ((byOffset members).flatMap (localRanges data)) e.centralOffset ∧
      (∀ info ∈ members, LocalAgrees P data info) ∧
      (∃ records, Tiles e.centralOffset records e.location ∧
        List.Forall₂ (CentralAgrees data) members records) ∧
      ((members.map (·.filename)).Nodup → ∀ info ∈ members, ranges info.filename =
        some (dataStart data info.headerOffset,
          dataStart data info.headerOffset + info.compressSize)) := by
  have hperm : (byOffset members).Perm members := List.perm_insertionSort _ _
  unfold coveredZip at h
  split_ifs at h
  obtain ⟨cursor, hcentral, h⟩ := bind_eq_ok.mp h
  split_ifs at h with hend
  obtain ⟨⟨ranges', cursor'⟩, hlocal, h⟩ := bind_eq_ok.mp h
  split_ifs at h with hlast
  cases h
  rw [not_not] at hend hlast
  subst hend
  simp only at hlast
  subst hlast
  obtain ⟨htiles, hagree, -, hown⟩ := localLoop_spec hlocal
  refine ⟨htiles, fun info hinfo => hagree info (hperm.mem_iff.mpr hinfo),
    centralLoop_tiles hcentral, fun honce info hinfo => ?_⟩
  exact hown ((hperm.map _).nodup_iff.mpr honce) info (hperm.mem_iff.mpr hinfo)

theorem infolist_filename {e : EndRecord} (h : infolist P data e = .ok members) :
    ∀ info ∈ members,
      info.filename = info.origFilename.takeWhile fun c => c ≠ Char.ofNat 0 := by
  unfold infolist at h
  split_ifs at h
  exact readRecords_filename h

/-- What the byte at a place of an accepted package belongs to. -/
inductive Accounted (P : Platform) (data : Bytes) (views : List (List Char)) (e : EndRecord)
    (members : List ZipInfo) (records : List (ℕ × ℕ)) (i : ℕ) : Prop
  | header (info : ZipInfo) (h : info ∈ members)
      (hin : info.headerOffset ≤ i ∧ i < dataStart data info.headerOffset)
  | content (info : ZipInfo) (h : info ∈ members) (hpart : InspectedPart P data info views)
      (hin : dataStart data info.headerOffset ≤ i ∧
        i < dataStart data info.headerOffset + info.compressSize)
  | central (r : ℕ × ℕ) (h : r ∈ records) (hin : r.1 ≤ i ∧ i < r.2)
  | last (h : e.location ≤ i)

theorem accounted {e : EndRecord} {views : List (List Char)} {records : List (ℕ × ℕ)}
    (hlocal : Tiles 0 ((byOffset members).flatMap (localRanges data)) e.centralOffset)
    (hcentral : Tiles e.centralOffset records e.location)
    (hmembers : ∀ info ∈ members, EmptyDirectory info ∨ InspectedPart P data info views) (i : ℕ) :
    Accounted P data views e members records i := by
  have hperm : (byOffset members).Perm members := List.perm_insertionSort _ _
  by_cases hlast : e.location ≤ i
  · exact .last hlast
  · by_cases hoffset : i < e.centralOffset
    · obtain ⟨r, hr, hin⟩ := hlocal.covers (Nat.zero_le i) hoffset
      obtain ⟨info, hinfo, hr⟩ := List.mem_flatMap.mp hr
      have hmem := hperm.mem_iff.mp hinfo
      rcases List.mem_cons.mp hr with rfl | hr
      · exact .header info hmem hin
      · rw [List.mem_singleton.mp hr] at hin
        rcases hmembers info hmem with hempty | hpart
        · have hnone := hempty.2.1
          omega
        · exact .content info hmem hpart hin
    · obtain ⟨r, hr, hin⟩ := hcentral.covers (not_lt.mp hoffset) (not_le.mp hlast)
      exact .central r hr hin

end Package

/-- The local records, in the order of their offsets, lie one behind the other from the first
byte to the central directory, the central records from there to the end record, and this
reaches the last byte. Every member is an empty directory or a part whose whole content is
inspected, so that every byte belongs to one record or to one inspected part. -/
structure Covered (P : Platform) (data : Bytes) (views : List (List Char)) (e : EndRecord)
    (members : List ZipInfo) (records : List (ℕ × ℕ)) : Prop where
  found : endRecord data = .ok e
  listed : infolist P data e = .ok members
  locals : Tiles 0 ((byOffset members).flatMap (localRanges data)) e.centralOffset
  agree : ∀ info ∈ members, LocalAgrees P data info
  centrals : Tiles e.centralOffset records e.location
  apart : ∀ i, ((byOffset members).flatMap (localRanges data) ++ records).Pairwise
    fun r r' => ¬ ((r.1 ≤ i ∧ i < r.2) ∧ r'.1 ≤ i ∧ i < r'.2)
  recorded : List.Forall₂ (CentralAgrees data) members records
  mark : slice data e.location (e.location + 4) = endMark
  last : e.location + 22 + e.commentLength = data.length
  inspected : ∀ info ∈ members, EmptyDirectory info ∨ InspectedPart P data info views
  bytes : ∀ i < data.length, Accounted P data views e members records i

/-- Every byte of an accepted package is covered. -/
theorem office_coverage (P : Platform) (data : Bytes) (suffix : String)
    (views : List (List Char)) (h : officeViews P data suffix = .ok views) :
    ∃ e members records, Covered P data views e members records := by
  unfold officeViews at h
  cases hmain : officeMain suffix with
  | none =>
    rw [hmain] at h
    cases h
  | some m =>
    obtain ⟨main, expectedRoot⟩ := m
    rw [hmain] at h
    obtain ⟨e, he, h⟩ := bind_eq_ok.mp h
    obtain ⟨members, hmembers, h⟩ := bind_eq_ok.mp h
    obtain ⟨ranges, hranges, h⟩ := bind_eq_ok.mp h
    unfold packageViews at h
    obtain ⟨_, hchecked, h⟩ := bind_eq_ok.mp h
    split_ifs at h
    obtain ⟨comment, -, h⟩ := bind_eq_ok.mp h
    obtain ⟨rest, hrest, rfl⟩ := map_eq_ok.mp h
    obtain ⟨hmark, hend⟩ := endRecord_spec he
    obtain ⟨hfacts, honce, -⟩ := checkMembers_spec hchecked
    obtain ⟨hlocal, hagree, ⟨records, hcentral, hrecords⟩, hown⟩ := coveredZip_spec hranges
    have hname : ∀ info ∈ members, info.filename = info.origFilename := by
      intro info hinfo
      rw [infolist_filename hmembers info hinfo, List.takeWhile_eq_self_iff]
      intro c hc
      rw [decide_eq_true_eq]
      exact fun hnull => (hfacts info hinfo).name (hnull ▸ hc)
    have hviews : ∀ info ∈ members,
        EmptyDirectory info ∨ InspectedPart P data info (comment :: rest) := by
      intro info hinfo
      obtain ⟨own, hmember, hwithin⟩ := membersViews_spec hrest info hinfo
      exact memberViews_spec (hfacts info hinfo) (hown (filenames_nodup honce hname) info hinfo)
        hmember (hwithin.trans (List.suffix_cons comment rest).isInfix)
    exact ⟨e, members, records, he, hmembers, hlocal, hagree, hcentral,
      fun i => (hlocal.append hcentral).disjoint, hrecords, hmark, hend, hviews, fun i _ => accounted hlocal hcentral hviews i⟩

section Plain

/-- One bit of the checksum of `zlib`. -/
def crcBit (c : ℕ) : ℕ := if c % 2 = 1 then 0xedb88320 ^^^ (c / 2) else c / 2

def crcByte (c : ℕ) (b : UInt8) : ℕ := Nat.iterate crcBit 8 (c ^^^ b.toNat)

def plainCrc (data : Bytes) : ℕ := data.foldl crcByte 0xffffffff ^^^ 0xffffffff

def asciiText (data : Bytes) : List Char := data.map fun b => Char.ofNat b.toNat

/-- A codec on ASCII. -/
def plainCodec (data : Bytes) : Option (List Char) :=
  if data.all (fun b => b < 128) = true then some (asciiText data) else none

/-- A deflate stream that is one stored block: what it holds and the bytes behind it. -/
def storedBlock : Bytes → Option (Bytes × Bytes)
  | 1 :: a :: b :: c :: d :: rest =>
    if a.toNat + c.toNat = 255 ∧ b.toNat + d.toNat = 255 ∧ a.toNat + 256 * b.toNat ≤ rest.length then
      some (rest.take (a.toNat + 256 * b.toNat), rest.drop (a.toNat + 256 * b.toNat))
    else none
  | _ => none

/-- Decompression of one stored block within the limit. -/
def plainDecompress (compressed : Bytes) (limit : ℕ) : Except Stop Inflated :=
  match storedBlock compressed with
  | some (content, rest) =>
    if content.length ≤ limit then .ok ⟨content, [], true, rest⟩ else .error (.raised "zlib.error")
  | none => .error (.raised "zlib.error")

theorem storedBlock_stream {compressed content rest : Bytes}
    (h : storedBlock compressed = some (content, rest)) :
    ∃ stream, compressed = stream ++ rest ∧ storedBlock stream = some (content, []) := by
  unfold storedBlock at h
  split at h
  · rename_i a b c d inner
    split_ifs at h with hlength
    simp only [Option.some.injEq, Prod.mk.injEq] at h
    obtain ⟨rfl, rfl⟩ := h
    refine ⟨1 :: a :: b :: c :: d :: inner.take (a.toNat + 256 * b.toNat), by simp, ?_⟩
    have htake : a.toNat + 256 * b.toNat ≤ (inner.take (a.toNat + 256 * b.toNat)).length := by
      rw [List.length_take]
      omega
    rw [storedBlock, if_pos ⟨hlength.1, hlength.2.1, htake⟩, List.take_take, Nat.min_self,
      List.drop_of_length_le (List.length_take_le _ _)]
  · cases h

/-- An element without attributes and content. -/
def plainElement (text : List Char) : Except Stop Element :=
  match text with
  | '<' :: rest =>
    if rest.drop (rest.length - 2) = ['/', '>'] ∧ (rest.take (rest.length - 2)).all Char.isAlpha = true
    then .ok (.mk (some (rest.take (rest.length - 2))) [] [] [] [])
    else .error (.blocked "XML extraction failed")
  | _ => .error (.blocked "XML extraction failed")

/-- The libraries on plain packages. -/
def plainPlatform : Platform where
  utf8 := plainCodec
  utf8Sig := plainCodec
  utf16 := fun _ => none
  cp437 := asciiText
  cp949 := plainCodec
  casefold := fun text => text.map Char.toLower
  crc32 := plainCrc
  decompress := plainDecompress
  Deflated := fun stream content => storedBlock stream = some (content, [])
  decompress_eof := by
    intro compressed limit r h _ _
    unfold plainDecompress at h
    cases hblock : storedBlock compressed with
    | none =>
      rw [hblock] at h
      cases h
    | some s =>
      obtain ⟨content, rest⟩ := s
      rw [hblock] at h
      simp only at h
      split_ifs at h
      cases h
      exact storedBlock_stream hblock
  fromstring := plainElement

def asciiBytes (text : String) : Bytes := text.toList.map fun c => UInt8.ofNat c.toNat

def packH (n : ℕ) : Bytes := [UInt8.ofNat n, UInt8.ofNat (n / 256)]

def packI (n : ℕ) : Bytes := packH n ++ packH (n / 65536)

/-- The fields that both records of a member have. -/
def plainFields (name : String) (method : ℕ) (bytes content : Bytes) : Bytes :=
  packH 20 ++ packH 0 ++ packH method ++ packI 0 ++ packI (plainCrc content) ++
    packI bytes.length ++ packI content.length ++ packH name.length ++ packH 0

def plainLocal (name : String) (method : ℕ) (bytes content : Bytes) : Bytes :=
  localMark ++ plainFields name method bytes content ++ asciiBytes name ++ bytes

def plainCentral (name : String) (method offset : ℕ) (bytes content : Bytes) : Bytes :=
  centralMark ++ packH 20 ++ plainFields name method bytes content ++ packH 0 ++ packH 0 ++
    packH 0 ++ packI 0 ++ packI offset ++ asciiBytes name

/-- A package of three parts, the first of them compressed. -/
def plainPackage : Bytes :=
  let types := asciiBytes "<Types/>"
  let stream := [1, 8, 0, 247, 255] ++ types
  let rels := asciiBytes "<Relationships/>"
  let document := asciiBytes "<document/>"
  plainLocal "[Content_Types].xml" 8 stream types ++ plainLocal "_rels/.rels" 0 rels rels ++
    plainLocal "word/document.xml" 0 document document ++
    plainCentral "[Content_Types].xml" 8 0 stream types ++
    plainCentral "_rels/.rels" 0 62 rels rels ++
    plainCentral "word/document.xml" 0 119 document document ++
    (endMark ++ packI 0 ++ packH 3 ++ packH 3 ++ packI 185 ++ packI 177 ++ packH 0)

theorem office_coverage_plain : ∃ views,
    officeViews plainPlatform plainPackage ".docx" = .ok views ∧
      ∃ e members records, Covered plainPlatform plainPackage views e members records := by
  have hok : (officeViews plainPlatform plainPackage ".docx").isOk = true := by decide +kernel
  cases h : officeViews plainPlatform plainPackage ".docx" with
  | error e =>
    rw [h] at hok
    cases hok
  | ok views => exact ⟨views, rfl, office_coverage plainPlatform plainPackage ".docx" views h⟩

end Plain

end NyanyaAgent.Safety
