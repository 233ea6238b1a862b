import NyanyaAgent.EnvFile.Readers
import NyanyaAgent.Text.Json
import NyanyaAgent.Uploads.Confirmation
import Mathlib.Data.List.Sort

/-!
# Office packages

`_office_views` of `upload_document_privacy.py`: the records of a package, its members and the
texts of their inspection. The time and text budget of an inspection is not part of it.
-/
namespace NyanyaAgent.Office
open NyanyaAgent.Text NyanyaAgent.Uploads

local instance lawfulNames : LawfulBEq (List Char) := inferInstance
local instance lawfulBytes : LawfulBEq (List UInt8) := inferInstance

abbrev Bytes := List UInt8

/-- Why an inspection ends without a report: `_blocked`, or an exception of a library. -/
inductive Stop
  | blocked (reason : String)
  | raised (exception : String)
  deriving DecidableEq

/-- `data[start:stop]`. -/
def slice (data : Bytes) (start stop : ℕ) : Bytes := (data.take stop).drop start

def byteAt (data : Bytes) (i : ℕ) : ℕ := (data.getD i 0).toNat

/-- The format `<H`. -/
def unpackH (data : Bytes) (i : ℕ) : ℕ := byteAt data i + 256 * byteAt data (i + 1)

def unpackI (data : Bytes) (i : ℕ) : ℕ := unpackH data i + 65536 * unpackH data (i + 2)

def rfind (mark : Bytes) : Bytes → Option ℕ
  | [] => none
  | b :: data =>
    match rfind mark data with
    | some i => some (i + 1)
    | none => if mark.isPrefixOf (b :: data) = true then some 0 else none

def localMark : Bytes := [80, 75, 3, 4]
def centralMark : Bytes := [80, 75, 1, 2]
def endMark : Bytes := [80, 75, 5, 6]

/-- A node of a parsed document; a comment and a processing instruction have no tag. -/
inductive Element
  | mk (tag : Option (List Char)) (text tail : List Char) (attrib : List (List Char × List Char))
      (children : List Element)

namespace Element

def tag : Element → Option (List Char)
  | mk tag _ _ _ _ => tag

def text : Element → List Char
  | mk _ text _ _ _ => text

def tail : Element → List Char
  | mk _ _ tail _ _ => tail

def attrib : Element → List (List Char × List Char)
  | mk _ _ _ attrib _ => attrib

mutual

def iter : Element → List Element
  | mk tag text tail attrib children => mk tag text tail attrib children :: iterAll children

def iterAll : List Element → List Element
  | [] => []
  | child :: children => iter child ++ iterAll children

end

mutual

def innerText : Element → List Char
  | mk none _ _ _ _ => []
  | mk (some _) text _ _ children => text ++ innerTexts children

def innerTexts : List Element → List Char
  | [] => []
  | mk tag text tail attrib children :: rest =>
    innerText (mk tag text tail attrib children) ++ tail ++ innerTexts rest

end

end Element

/-- What a decompression object has after a call: its output and where it stands. -/
structure Inflated where
  content : Bytes
  unconsumedTail : Bytes
  eof : Bool
  unusedData : Bytes

/-- The libraries: codecs, `zlib` and the document parser. -/
structure Platform where
  utf8 : Bytes → Option (List Char)
  utf8Sig : Bytes → Option (List Char)
  utf16 : Bytes → Option (List Char)
  cp437 : Bytes → List Char
  cp949 : Bytes → Option (List Char)
  casefold : List Char → List Char
  crc32 : Bytes → ℕ
  /-- `decompressobj(-15).decompress` with a limit for the output. -/
  decompress : Bytes → ℕ → Except Stop Inflated
  /-- The complete deflate streams and what they hold. -/
  Deflated : Bytes → Bytes → Prop
  /-- At the end of a stream the input is the stream and the unused bytes. -/
  decompress_eof : ∀ compressed limit r, decompress compressed limit = .ok r → r.eof = true →
    r.unconsumedTail = [] → ∃ stream, compressed = stream ++ r.unusedData ∧ Deflated stream r.content
  /-- `ET.fromstring` with the bounded builder. -/
  fromstring : List Char → Except Stop Element

variable (P : Platform)

/-- What a record of the central directory says of a member. -/
structure ZipInfo where
  origFilename : List Char
  filename : List Char
  flagBits : ℕ
  compressType : ℕ
  crc : ℕ
  compressSize : ℕ
  fileSize : ℕ
  extra : Bytes
  comment : Bytes
  externalAttr : ℕ
  headerOffset : ℕ

def ZipInfo.isDir (info : ZipInfo) : Bool := info.filename.getLast? = some '/'

/-- A name in a record: UTF-8 with the flag for it. -/
def decodeName (flags : ℕ) (name : Bytes) : Except Stop (List Char) :=
  if flags.testBit 11 = true then
    match P.utf8 name with
    | some name => .ok name
    | none => .error (.raised "UnicodeDecodeError")
  else .ok (P.cp437 name)

/-- The record of a central directory at a place, with the shift of its offsets; extra data is
not read, since no package with some is accepted. -/
def readRecord (directory : Bytes) (total startDir centralOffset : ℕ) : Except Stop ZipInfo :=
  if directory.length < total + 46 then .error (.raised "BadZipFile")
  else if slice directory total (total + 4) ≠ centralMark then .error (.raised "BadZipFile")
  else
    let nameStop := total + 46 + unpackH directory (total + 28)
    let extraStop := nameStop + unpackH directory (total + 30)
    (decodeName P (unpackH directory (total + 8)) (slice directory (total + 46) nameStop)).bind
      fun name =>
        if 63 < byteAt directory (total + 6) then .error (.raised "NotImplementedError")
        else .ok {
          origFilename := name
          filename := name.takeWhile fun c => c ≠ Char.ofNat 0
          flagBits := unpackH directory (total + 8)
          compressType := unpackH directory (total + 10)
          crc := unpackI directory (total + 16)
          compressSize := unpackI directory (total + 20)
          fileSize := unpackI directory (total + 24)
          extra := slice directory nameStop extraStop
          comment := slice directory extraStop (extraStop + unpackH directory (total + 32))
          externalAttr := unpackI directory (total + 38)
          headerOffset := unpackI directory (total + 42) + startDir - centralOffset }

def recordLength (data : Bytes) (cursor : ℕ) : ℕ :=
  46 + unpackH data (cursor + 28) + unpackH data (cursor + 30) + unpackH data (cursor + 32)

/-- The loop of `ZipFile._RealGetContents`; a record has 46 bytes at least, so that as many
rounds as the directory has bytes are enough. -/
def readRecords (directory : Bytes) (startDir centralOffset : ℕ) :
    ℕ → ℕ → Except Stop (List ZipInfo)
  | 0, _ => .ok []
  | rounds + 1, total =>
    if directory.length ≤ total then .ok []
    else (readRecord P directory total startDir centralOffset).bind fun info =>
      (readRecords directory startDir centralOffset rounds
        (total + recordLength directory total)).map fun infos => info :: infos

structure EndRecord where
  location : ℕ
  entries : ℕ
  centralSize : ℕ
  centralOffset : ℕ
  commentLength : ℕ

def startDir (e : EndRecord) : ℕ := e.location - e.centralSize

/-- `zipfile.ZipFile(...).infolist()`, when it finds the same end record. -/
def infolist (data : Bytes) (e : EndRecord) : Except Stop (List ZipInfo) :=
  if e.location < e.centralSize then .error (.raised "BadZipFile")
  else
    let directory := slice data (startDir e) e.location
    readRecords P directory (startDir e) e.centralOffset directory.length 0

def maxZipEntries : ℕ := 256
def maxXmlPartBytes : ℕ := 4 * 1024 * 1024
def maxUncompressedBytes : ℕ := 16 * 1024 * 1024
def maxCompressionRatio : ℕ := 100

/-- The first loop of `_covered_zip`: the cursor behind the central records. -/
def centralLoop (data : Bytes) (stop : ℕ) : List ZipInfo → ℕ → Except Stop ℕ
  | [], cursor => .ok cursor
  | info :: members, cursor =>
    if stop < cursor + 46 ∨ slice data cursor (cursor + 4) ≠ centralMark then
      .error (.blocked "Office central directory mismatch")
    else if unpackH data (cursor + 34) ≠ 0 ∨ unpackH data (cursor + 30) ≠ 0 ∨
        unpackI data (cursor + 42) ≠ info.headerOffset then
      .error (.blocked "unsupported Office directory metadata")
    else if stop < cursor + recordLength data cursor then
      .error (.blocked "Office central directory bound")
    else centralLoop data stop members (cursor + recordLength data cursor)

abbrev Ranges := List Char → Option (ℕ × ℕ)

def dataStart (data : Bytes) (offset : ℕ) : ℕ := offset + 30 + unpackH data (offset + 26)

/-- The checks of a local record: the range of its data. -/
def localRecord (data : Bytes) (centralOffset cursor : ℕ) (info : ZipInfo) :
    Except Stop (ℕ × ℕ) :=
  let offset := info.headerOffset
  if offset ≠ cursor ∨ centralOffset < offset + 30 ∨ slice data offset (offset + 4) ≠ localMark then
    .error (.blocked "uninspected Office local record gap")
  else
    let flags := unpackH data (offset + 6)
    if flags &&& 0xf7f9 ≠ 0 ∨ flags ≠ info.flagBits ∨ unpackH data (offset + 8) ≠ info.compressType ∨
        unpackH data (offset + 28) ≠ 0 ∨ unpackI data (offset + 18) ≠ info.compressSize ∨
        unpackI data (offset + 22) ≠ info.fileSize ∨ unpackI data (offset + 14) ≠ info.crc then
      .error (.blocked "unsupported Office local metadata or data descriptor")
    else if centralOffset < dataStart data offset + info.compressSize then
      .error (.blocked "Office local record byte bound")
    else
      (decodeName P flags (slice data (offset + 30) (dataStart data offset))).bind fun name =>
        if name ≠ info.origFilename then .error (.blocked "Office local filename mismatch")
        else .ok (dataStart data offset, dataStart data offset + info.compressSize)

/-- The second loop: the ranges of the data and the cursor behind the local records. -/
def localLoop (data : Bytes) (centralOffset : ℕ) :
    List ZipInfo → ℕ → Ranges → Except Stop (Ranges × ℕ)
  | [], cursor, ranges => .ok (ranges, cursor)
  | info :: members, cursor, ranges =>
    (localRecord P data centralOffset cursor info).bind fun range =>
      localLoop data centralOffset members range.2
        (Function.update ranges info.filename (some range))

def byOffset (members : List ZipInfo) : List ZipInfo :=
  members.insertionSort fun a b => a.headerOffset ≤ b.headerOffset

def coveredZip (data : Bytes) (e : EndRecord) (members : List ZipInfo) : Except Stop Ranges :=
  if e.entries ≠ members.length ∨ e.entries < 1 ∨ maxZipEntries < e.entries then
    .error (.blocked "Office part count bound")
  else if e.centralOffset + e.centralSize ≠ e.location ∨ startDir e ≠ e.centralOffset then
    .error (.blocked "uninspected Office directory content")
  else
    (centralLoop data e.location members e.centralOffset).bind fun cursor =>
      if cursor ≠ e.location then .error (.blocked "uninspected Office central directory gap")
      else
        (localLoop P data e.centralOffset (byOffset members) 0 fun _ => none).bind fun r =>
          if r.2 ≠ e.centralOffset then
            .error (.blocked "uninspected Office local directory gap")
          else .ok r.1

def readZipXml (data : Bytes) (info : ZipInfo) (range : ℕ × ℕ) : Except Stop Bytes :=
  let compressed := slice data range.1 range.2
  let content : Except Stop Bytes :=
    if info.compressType = 0 then .ok compressed
    else
      (P.decompress compressed (maxXmlPartBytes + 1)).bind fun r =>
        if r.unconsumedTail ≠ [] ∨ r.eof = false ∨ r.unusedData ≠ [] then
          .error (.blocked "uninspected Office compressed-stream content")
        else .ok r.content
  content.bind fun content =>
    if content.length ≠ info.fileSize ∨ maxXmlPartBytes < content.length ∨
        P.crc32 content ≠ info.crc then
      .error (.blocked "Office part byte or integrity bound")
    else .ok content

def decode (data : Bytes) (xml : Bool) : Except Stop (List Char) :=
  let text : Except Stop (List Char) :=
    if [255, 254].isPrefixOf data = true ∨ [254, 255].isPrefixOf data = true then
      match P.utf16 data with
      | some text => .ok text
      | none => .error (.blocked "unsupported text encoding")
    else
      match P.utf8Sig data with
      | some text => .ok text
      | none =>
        if xml = true then .error (.blocked "unsupported XML encoding")
        else
          match P.cp949 data with
          | some text => .ok text
          | none => .error (.blocked "unsupported text encoding")
  text.bind fun text =>
    if text.any (fun c => decide (c.toNat < 32) && ! decide (c.toNat ∈ [9, 10, 13, 12])) = true then
      .error (.blocked "binary or unsupported text content")
    else .ok text

/-- A text is somewhere in another. -/
def within (part text : List Char) : Bool := text.tails.any fun rest => part.isPrefixOf rest

def parseXml (data : Bytes) : Except Stop (List Char × Element) :=
  if maxXmlPartBytes < data.length then .error (.blocked "XML part byte bound")
  else
    (decode P data true).bind fun text =>
      if within "<!doctype".toList (P.casefold text) = true ∨
          within "<!entity".toList (P.casefold text) = true then
        .error (.blocked "XML declarations are unsupported")
      else (P.fromstring text).map fun root => (text, root)

/-- The text behind the last of a mark. -/
def behindLast (mark : Char) (text : List Char) : List Char :=
  (text.reverse.takeWhile fun c => c ≠ mark).reverse

def localName : Option (List Char) → List Char
  | some tag => behindLast closeBrace tag
  | none => []

def visualXmlTags : List (List Char) :=
  ["svg".toList, "image".toList, "img".toList, "blip".toList, "imagedata".toList,
    "oleobject".toList, "object".toList, "altchunk".toList, "pict".toList, "picture".toList,
    "pic".toList, "graphic".toList, "graphicdata".toList, "drawing".toList, "shape".toList,
    "canvas".toList, "video".toList, "audio".toList, "embed".toList, "iframe".toList,
    "script".toList, "include".toList]

/-- A character that a lower case letter or another sign of a pattern matches without regard to
case. -/
def ignoringCase (pattern c : Char) : Bool :=
  c = pattern || c.toLower = pattern || (pattern = 's' && c.toNat = 0x17f) ||
    (pattern = 'k' && c.toNat = 0x212a) || (pattern = 'i' && (c.toNat = 0x130 || c.toNat = 0x131))

def startsIgnoringCase (pattern text : List Char) : Bool :=
  decide (pattern.length ≤ text.length) && (pattern.zip text).all fun p => ignoringCase p.1 p.2

def credentialWords : List (List Char) :=
  ["password".toList, "passwd".toList, "apikey".toList, "api_key".toList, "api-key".toList,
    "token".toList, "secret".toList, "credential".toList, "privatekey".toList,
    "private_key".toList, "private-key".toList, "authorization".toList, "cookie".toList]

def credentialTag (text : List Char) : Bool :=
  text.tails.any fun rest => credentialWords.any fun word => startsIgnoringCase word rest

/-- `json.dumps` of an object with one text, in other than ASCII. -/
def dumpsOne (key value : List Char) : List Char :=
  openBrace :: renderText (String.ofList key) ++ ": ".toList ++
    renderText (String.ofList value) ++ [closeBrace]

/-- What `_xml_views` yields for one node. -/
def itemViews (item : Element) : Except Stop (List (List Char)) :=
  let label := localName item.tag
  if within "encrypt".toList (P.casefold label) = true then
    .error (.blocked "encrypted XML content is uninspected")
  else if visualXmlTags.any (fun tag => tag = P.casefold label) = true then
    .error (.blocked "XML visual or embedded content is uninspected")
  else
    let values := item.attrib.map fun a => (localName (some a.1), a.2)
    if ¬ (values.map fun a => P.casefold a.1).Nodup then
      .error (.blocked "ambiguous XML attributes are uninspected")
    else
      let inner := strip EnvFile.pySpace item.innerText
      .ok (values.flatMap (fun a => [a.2, a.1 ++ ": ".toList ++ a.2]) ++
        (if label ≠ [] ∧ credentialTag label = true then [dumpsOne label inner] else []) ++
        values.flatMap fun a =>
          if (P.casefold a.1 = "name".toList ∨ P.casefold a.1 = "key".toList) ∧
              credentialTag a.2 = true then
            [dumpsOne a.2 (((values.find? fun v => v.1 = "value".toList).map (·.2)).getD inner)]
          else [])

def itemTexts (item : Element) : List (List Char) :=
  (if item.text ≠ [] then [item.text] else []) ++ if item.tail ≠ [] then [item.tail] else []

def itemLabels (item : Element) : List (List Char) :=
  if item.text ≠ [] ∧ localName item.tag ≠ [] then
    [localName item.tag ++ ": ".toList ++ item.text]
  else []

def itemsViews : List Element → Except Stop (List (List Char))
  | [] => .ok []
  | item :: items => (itemViews P item).bind fun views =>
    (itemsViews items).map fun rest => views ++ rest

def xmlViews (raw : List Char) (root : Element) : Except Stop (List (List Char)) :=
  (itemsViews P root.iter).map fun views =>
    let texts := root.iter.flatMap itemTexts
    let labels := root.iter.flatMap itemLabels
    raw :: (views ++ [['\n'].intercalate labels, texts.flatten,
      (texts.map (strip EnvFile.pySpace)).flatten, [' '].intercalate texts])

def pathParts (path : PosixPath) : List (List Char) :=
  (if path.root = [] then [] else [path.root]) ++ path.parts

def badPath (name : List Char) (seen : List (List Char)) : Bool :=
  let path := PosixPath.of (String.ofList name)
  decide (name = []) || decide (512 < name.length) || decide (Char.ofNat 0 ∈ name) ||
    decide (backslash ∈ name) || decide (':' ∈ name) || decide (path.root ≠ []) ||
    (pathParts path).any (fun part => part = ['.', '.']) || decide (32 < (pathParts path).length) ||
    seen.any (fun folded => folded = P.casefold name) ||
    decide (path.toString.toList ≠ rstrip (fun c => c = '/') name)

def mediaPart (part : List Char) : Bool :=
  ["media".toList, "embeddings".toList, "activex".toList].any (fun name => name = part) ||
    "thumbnail".toList.isPrefixOf part || "vbaproject".toList.isPrefixOf part

def xmlName (name : List Char) : Bool :=
  ".xml".toList.isSuffixOf (P.casefold name) || ".rels".toList.isSuffixOf (P.casefold name)

/-- One round of the first loop of `_office_views`, with the folded names before it and the
bytes of the parts: the bytes with its own. -/
def checkMember (info : ZipInfo) (seen : List (List Char)) (total : ℕ) : Except Stop ℕ :=
  if badPath P info.origFilename seen = true then
    .error (.blocked "unsupported Office member path")
  else if info.externalAttr / 65536 &&& 0o170000 = 0o120000 ∨ info.flagBits.testBit 0 = true then
    .error (.blocked "encrypted or linked Office part")
  else if info.extra ≠ [] ∨ info.compressType ≠ 0 ∧ info.compressType ≠ 8 then
    .error (.blocked "unsupported Office part metadata or compression")
  else if (pathParts (PosixPath.of (String.ofList info.origFilename))).any
      (fun part => mediaPart (P.casefold part)) = true then
    .error (.blocked "Office media or embedded path is uninspected")
  else if info.isDir = true then
    if info.fileSize ≠ 0 ∨ info.compressSize ≠ 0 ∨ info.crc ≠ 0 ∨ info.compressType ≠ 0 then
      .error (.blocked "unsupported Office directory content")
    else .ok total
  else if xmlName P info.origFilename = false then
    .error (.blocked "Office media or binary part requires unavailable inspection")
  else if maxXmlPartBytes < info.fileSize then .error (.blocked "Office part byte bound")
  else if maxUncompressedBytes < total + info.fileSize ∨
      max info.compressSize 1 * maxCompressionRatio < info.fileSize then
    .error (.blocked "Office decompression bound")
  else .ok (total + info.fileSize)

def checkMembers : List ZipInfo → List (List Char) → ℕ → Except Stop Unit
  | [], _, _ => .ok ()
  | info :: members, seen, total => (checkMember P info seen total).bind fun total =>
    checkMembers members (P.casefold info.origFilename :: seen) total

def officeMain (suffix : String) : Option (List Char × List Char) :=
  if suffix = ".docx" then some ("word/document.xml".toList, "document".toList)
  else if suffix = ".xlsx" then some ("xl/workbook.xml".toList, "workbook".toList)
  else if suffix = ".pptx" then some ("ppt/presentation.xml".toList, "presentation".toList)
  else none

def attribOf (item : Element) (name : String) : Option (List Char) :=
  (item.attrib.find? fun a => a.1 = name.toList).map (·.2)

/-- A content type that is not that of an inspected part. -/
def badContentType (contentType : List Char) : Bool :=
  let types := ["application/xml".toList, "text/xml".toList]
  let words := ["vba".toList, "oleobject".toList, "macroenabled".toList, "activex".toList,
    "encrypt".toList, "obfuscatedfont".toList]
  decide (contentType ≠ []) &&
    (! (types.any (fun t => t = contentType) || "+xml".toList.isSuffixOf contentType) ||
      "image/".toList.isPrefixOf contentType || "font/".toList.isPrefixOf contentType ||
      words.any fun word => within word contentType)

def hasScheme (target : List Char) : Bool :=
  let letter := fun c : Char => c.isAlpha || decide (c.toNat ∈ [0x130, 0x131, 0x17f, 0x212a])
  let inner := fun c : Char => letter c || c.isDigit || decide (c ∈ ['+', '.', '-'])
  match target with
  | [] => false
  | c :: rest => letter c && decide ((rest.dropWhile inner).head? = some ':')

def posixJoin (a b : List Char) : List Char :=
  if b.head? = some '/' then b
  else if a = [] ∨ a.getLast? = some '/' then a ++ b
  else a ++ '/' :: b

/-- The components of `posixpath.normpath`, the last one first. -/
def normParts (rooted : Bool) : List (List Char) → List (List Char) → List (List Char)
  | kept, [] => kept
  | kept, part :: parts =>
    if part = [] ∨ part = ['.'] then normParts rooted kept parts
    else if part ≠ ['.', '.'] ∨ rooted = false ∧ kept = [] ∨ kept.head? = some ['.', '.'] then
      normParts rooted (part :: kept) parts
    else normParts rooted kept.tail parts

def normpath (path : List Char) : List Char :=
  let root := posixRoot path
  let text := root ++ ['/'].intercalate (normParts (decide (root ≠ [])) [] (path.splitOn '/')).reverse
  if text = [] then ['.'] else text

/-- The text in front of the last of a mark, which is in it. -/
def beforeLast (mark : List Char) : List Char → Option (List Char)
  | [] => none
  | c :: text =>
    match beforeLast mark text with
    | some before => some (c :: before)
    | none => if mark.isPrefixOf (c :: text) = true then some [] else none

def checkRelationship (names : List (List Char)) (before : List Char) (item : Element) :
    Except Stop Unit :=
  if localName item.tag ≠ "Relationship".toList then .ok ()
  else
    let target := (attribOf item "Target").getD []
    if P.casefold ((attribOf item "TargetMode").getD "Internal".toList) ≠ "internal".toList ∨
        hasScheme target = true then
      .error (.blocked "external Office content is uninspected")
    else
      let path := normpath (posixJoin before (target.takeWhile fun c => c ≠ '#'))
      if backslash ∈ target ∨ "../".toList.isPrefixOf path = true ∨
          (names.any fun name => name = path) = false then
        .error (.blocked "unavailable Office relationship target")
      else .ok ()

def checkRelationships (names : List (List Char)) (before : List Char) :
    List Element → Except Stop Unit
  | [] => .ok ()
  | item :: items => (checkRelationship P names before item).bind fun _ =>
    checkRelationships names before items

/-- The checks of the parts that describe the package. -/
def checkStructure (main expectedRoot : List Char) (names : List (List Char)) (info : ZipInfo)
    (root : Element) : Except Stop Unit :=
  if info.filename = main ∧ localName root.tag ≠ expectedRoot then
    .error (.blocked "Office main part mismatch")
  else if info.filename = "[Content_Types].xml".toList ∧ localName root.tag ≠ "Types".toList then
    .error (.blocked "Office content types mismatch")
  else if info.filename = "[Content_Types].xml".toList ∧ root.iter.any (fun item =>
      badContentType (P.casefold ((attribOf item "ContentType").getD []))) = true then
    .error (.blocked "Office content type requires unavailable inspection")
  else if ".rels".toList.isSuffixOf (P.casefold info.filename) = true then
    if localName root.tag ≠ "Relationships".toList then
      .error (.blocked "Office relationship extraction failed")
    else
      checkRelationships P names ((beforeLast "/_rels/".toList info.filename).getD []) root.iter
  else .ok ()

def partViews (data : Bytes) (main expectedRoot : List Char) (names : List (List Char))
    (ranges : Ranges) (info : ZipInfo) : Except Stop (List (List Char)) :=
  match ranges info.filename with
  | none => .error (.raised "KeyError")
  | some range =>
    (readZipXml P data info range).bind fun content => (parseXml P content).bind fun r =>
      (checkStructure P main expectedRoot names info r.2).bind fun _ => xmlViews P r.1 r.2

def memberViews (data : Bytes) (main expectedRoot : List Char) (names : List (List Char))
    (ranges : Ranges) (info : ZipInfo) : Except Stop (List (List Char)) :=
  (decode P info.comment false).bind fun comment =>
    (if info.isDir = true then .ok []
      else partViews P data main expectedRoot names ranges info).map fun views =>
        info.origFilename :: comment :: views

def membersViews (data : Bytes) (main expectedRoot : List Char) (names : List (List Char))
    (ranges : Ranges) : List ZipInfo → Except Stop (List (List Char))
  | [] => .ok []
  | info :: members => (memberViews P data main expectedRoot names ranges info).bind fun views =>
    (membersViews data main expectedRoot names ranges members).map fun rest => views ++ rest

/-- The end record of data, and its checks. -/
def endRecord (data : Bytes) : Except Stop EndRecord :=
  if localMark.isPrefixOf data = false then
    .error (.blocked "Office extraction failed or encrypted document")
  else
    match rfind endMark data with
    | none => .error (.blocked "Office extraction failed")
    | some location =>
      if data.length < location + 22 then .error (.blocked "Office extraction failed")
      else if unpackH data (location + 4) ≠ 0 ∨ unpackH data (location + 6) ≠ 0 ∨
          unpackH data (location + 8) ≠ unpackH data (location + 10) ∨
          location + 22 + unpackH data (location + 20) ≠ data.length then
        .error (.blocked "uninspected Office trailing or multidisk content")
      else .ok {
        location, entries := unpackH data (location + 10)
        centralSize := unpackI data (location + 12)
        centralOffset := unpackI data (location + 16)
        commentLength := unpackH data (location + 20) }

def packageViews (data : Bytes) (main expectedRoot : List Char) (e : EndRecord)
    (members : List ZipInfo) (ranges : Ranges) : Except Stop (List (List Char)) :=
  let names := members.map (·.origFilename)
  (checkMembers P members [] 0).bind fun _ =>
    if ["[Content_Types].xml".toList, "_rels/.rels".toList, main].all
        (fun name => names.any fun n => n = name) = false then
      .error (.blocked "required Office structure missing")
    else
      (decode P (slice data (e.location + 22) (e.location + 22 + e.commentLength)) false).bind
        fun comment => (membersViews P data main expectedRoot names ranges members).map
          fun views => comment :: views

/-- `_office_views` of data with a suffix, when every text is asked for. -/
def officeViews (data : Bytes) (suffix : String) : Except Stop (List (List Char)) :=
  match officeMain suffix with
  | none => .error (.raised "KeyError")
  | some (main, expectedRoot) =>
    (endRecord data).bind fun e => (infolist P data e).bind fun members =>
      (coveredZip P data e members).bind fun ranges =>
        packageViews P data main expectedRoot e members ranges

end NyanyaAgent.Office
