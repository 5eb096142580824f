import ReminderSuite.DocRoot
import Mathlib.Data.List.TakeWhile

/-! A file below the document root from the request for it to the bytes of its reply. -/
namespace ReminderSuite
open Delimited FileTree RequestHandler RequestParser ResponseReader
variable {ν : Type}

section Extensions
variable {a b : Bytes} {c : UInt8}

theorem findLastOf_append_cons (h : c ∉ b) (a : Bytes) :
    findLastOf (a ++ c :: b) c = some a.length := by
  have hnone : b.reverse.findIdx? (fun x => x == c) = none := by
    rw [List.findIdx?_eq_none_iff]
    intro x hx
    simpa using fun heq : x = c => h (heq ▸ List.mem_reverse.mp hx)
  have hreverse : (a ++ c :: b).reverse = b.reverse ++ c :: a.reverse := by simp
  have hfirst : (c :: a.reverse).findIdx? (fun x => x == c) = some 0 := by
    simp [List.findIdx?_cons]
  rw [findLastOf, hreverse, List.findIdx?_append, hnone, hfirst]
  simp

theorem findLastOf_of_not_mem {s : Bytes} (h : c ∉ s) : findLastOf s c = none := by
  rw [findLastOf, Option.map_eq_none_iff, List.findIdx?_eq_none_iff]
  intro x hx
  simpa using fun heq : x = c => h (heq ▸ List.mem_reverse.mp hx)

theorem split_last {s : Bytes} (h : c ∈ s) : ∃ front back, s = front ++ c :: back ∧ c ∉ back := by
  obtain ⟨front, back, heq, hfront⟩ := List.eq_append_cons_of_mem (List.mem_reverse.mpr h)
  refine ⟨back.reverse, front.reverse, ?_, by simpa using hfront⟩
  rw [← List.reverse_reverse s, heq]
  simp

def nameExtension (name : Bytes) : Bytes :=
  if dot ∈ name then (name.reverse.takeWhile (· ≠ dot)).reverse else []

theorem nameExtension_append (stem : Bytes) {extension : Bytes} (h : dot ∉ extension) :
    nameExtension (stem ++ dot :: extension) = extension := by
  have hplain : ∀ c ∈ extension.reverse, decide (c ≠ dot) = true := fun c hc =>
    decide_eq_true fun heq => h (heq ▸ List.mem_reverse.mp hc)
  rw [nameExtension, if_pos (by simp), List.reverse_append, List.reverse_cons, List.append_assoc,
    List.takeWhile_append_of_pos hplain]
  simp

theorem extensionOf_last {name : Bytes} (hname : slash ∉ name) (base : Bytes) :
    extensionOf (base ++ slash :: name) = nameExtension name := by
  rw [extensionOf, findLastOf_append_cons hname base]
  by_cases hdot : dot ∈ name
  · obtain ⟨stem, extension, rfl, hext⟩ := split_last hdot
    have hassoc : base ++ slash :: (stem ++ dot :: extension) =
        (base ++ slash :: stem) ++ dot :: extension := by simp
    rw [nameExtension_append stem hext, hassoc, findLastOf_append_cons hext]
    have hlater : base.length < (base ++ slash :: stem).length := by simp
    simp only [gt_iff_lt, if_pos hlater]
    rw [List.drop_append]
    simp
  · rw [nameExtension, if_neg hdot]
    by_cases hbase : dot ∈ base
    · obtain ⟨front, back, rfl, hback⟩ := split_last hbase
      have hrest : dot ∉ back ++ slash :: name := by
        simp only [List.mem_append, List.mem_cons, not_or]
        exact ⟨hback, by decide, hdot⟩
      rw [List.append_assoc, List.cons_append, findLastOf_append_cons hrest]
      simp
    · have hnone : dot ∉ base ++ slash :: name := by
        simp only [List.mem_append, List.mem_cons, not_or]
        exact ⟨hbase, by decide, hdot⟩
      rw [findLastOf_of_not_mem hnone]

end Extensions

/-- A name that a request can use for an entry of a directory -/
structure FileName (name : Bytes) : Prop where
  ne_nil : name ≠ []
  ne_dot : name ≠ [dot]
  no_dots : ¬ ascii ".." <:+: name
  no_slash : slash ∉ name
  no_nul : 0 ∉ name

/-- The path of a file, as a request may give it: a page of a directory by the directory -/
inductive Names : Bytes → List Bytes → Bytes → Prop
  | file (front : List Bytes) (last : Bytes) : Names (preceded slash (front ++ [last])) front last
  | page (front : List Bytes) : Names (preceded slash (front ++ [[]])) front (ascii "index.html")

def Receives (gw : Gateway ν) (reads : List Bytes) (w : ν) (response : Response) : Prop :=
  ∃ conn rep bytes, Connection.start.serve (handleRequest gw) reads w = (.ok conn, w) ∧
    conn.written = [rep] ∧ rep.wire = some bytes ∧
    ∀ rest, readResponse (bytes ++ rest) = some (response, rest)

section Requests
variable {gw : Gateway ν} {fs : FileSystem} {m : Message} {path last : Bytes} {front : List Bytes}

theorem receives_reply {rep : Reply} {status : StatusType} {reads : List Bytes} {w : ν}
    (hreads : m.text <+: reads.flatten) (hrep : rep.Sendable) (hstatus : rep.status = some status)
    (h : handleRequest gw m.request Reply.start w = (.ok rep, w)) :
    Receives gw reads w (rep.response status) := by
  have hserve : Connection.start.serve (handleRequest gw) reads w =
      answered (handleRequest gw) m w :=
    serve_message hreads
  rw [answered, h] at hserve
  exact ⟨_, rep, _, hserve, rfl, by rw [Reply.wire, hstatus]; rfl, readResponse_wire hrep status⟩

theorem head_preceded (sep : UInt8) (front : List Bytes) (name : Bytes) :
    (preceded sep (front ++ [name])).head? = some sep := by
  cases front <;> simp

theorem not_rdb_call (hfront : ∀ n ∈ front, slash ∉ n) {name : Bytes} (hname : slash ∉ name)
    (hrdb : front.head? ≠ some (ascii "rdb")) :
    RdbHandler.isRDBcall (preceded slash (front ++ [name])) = false := by
  have hsplit : (preceded slash (front ++ [name])).splitOn slash = [] :: (front ++ [name]) := by
    refine splitOn_preceded fun n hn => ?_
    cases List.mem_append.mp hn with
    | inl h => exact hfront n h
    | inr h => exact (List.mem_singleton.mp h) ▸ hname
  cases hcall : RdbHandler.isRDBcall (preceded slash (front ++ [name])) with
  | false => rfl
  | true =>
    obtain ⟨rest, hrest⟩ := RdbHandler.isRDBcall_iff.mp hcall
    have hcut : ascii "/rdb/" ++ rest = slash :: (ascii "rdb" ++ slash :: rest) := rfl
    rw [← hrest, hcut, splitOn_sep_cons,
      List.splitOn_append_cons_self_of_not_mem (by decide)] at hsplit
    have hnames := (List.cons.inj hsplit).2
    cases front with
    | nil => simp at hnames
    | cons n ns => exact absurd (congrArg some (List.cons.inj hnames).1.symm) hrdb

theorem component_into {name : Bytes} (h : FileName name) : component name = .into name := by
  have hdots : name ≠ [dot, dot] := by
    intro heq
    exact h.no_dots (heq ▸ List.infix_refl _)
  rw [component, if_neg (not_or.mpr ⟨h.ne_nil, h.ne_dot⟩), if_neg hdots]

/-- Opening the path of a file below the document root follows its names there. -/
theorem openFile_names {dir : Node Bytes Bytes} (hroot : 0 ∉ gw.docRoot)
    (hdir : fs.nodeAt (gw.docRoot ++ [slash]) = some dir) (hfree : dir.LinkFree)
    (hnames : ∀ n ∈ front ++ [last], FileName n) :
    fs.openFile (cString (gw.docRoot ++ preceded slash (front ++ [last]))) =
      (dir.descend ((front ++ [last]).map .into)).bind fs.read := by
  obtain ⟨rest, hrest⟩ := List.head?_eq_some_iff.mp (head_preceded slash front last)
  have hsplit : rest.splitOn slash = front ++ [last] := by
    have hpieces := splitOn_preceded fun n hn => (hnames n hn).no_slash
    rw [hrest, splitOn_sep_cons] at hpieces
    exact (List.cons.inj hpieces).2
  have hsteps : steps rest = (front ++ [last]).map .into := by
    rw [steps, hsplit]
    exact List.map_congr_left fun n hn => component_into (hnames n hn)
  have hnul : cString rest = rest := by
    have hwhole : ∀ c ∈ preceded slash (front ++ [last]), c ≠ 0 := by
      intro c hc heq
      subst heq
      obtain ⟨n, hn, hmem⟩ := List.mem_flatMap.mp hc
      cases List.mem_cons.mp hmem with
      | inl hslash => exact absurd hslash (by decide)
      | inr hin => exact (hnames n hn).no_nul hin
    have hplain : ∀ c ∈ rest, decide (c ≠ 0) = true := fun c hc =>
      decide_eq_true (hwhole c (hrest ▸ List.mem_cons_of_mem slash hc))
    exact List.takeWhile_eq_self_iff.mpr hplain
  have hdots : ¬ ascii ".." <:+: rest := by
    intro hin
    have hin' : ascii ".." <:+: preceded slash (front ++ [last]) :=
      hrest ▸ hin.trans (List.suffix_cons slash rest).isInfix
    obtain ⟨n, hn, hdot⟩ := infix_preceded (by decide) (by decide) hin'
    exact (hnames n hn).no_dots hdot
  have hbelow : fs.LinkFreeBelow gw.docRoot := fun dir' hdir' =>
    Option.some.inj (hdir.symm.trans hdir') ▸ hfree
  rw [hrest, cString_below hroot, hnul, FileSystem.openFile, nodeAt_below hbelow hdots, hdir,
    Option.bind_some, hsteps]

theorem preceded_concat (sep : UInt8) (front : List Bytes) (name : Bytes) :
    preceded sep (front ++ [name]) = preceded sep front ++ sep :: name := by
  simp [preceded]

theorem Names.page_path (h : Names path front last) (hlast : FileName last) :
    (if path.getLast? = some slash then path ++ ascii "index.html" else path) =
      preceded slash (front ++ [last]) := by
  cases h with
  | file =>
    refine if_neg fun hslash => hlast.no_slash ?_
    rw [preceded_concat, List.getLast?_append_of_ne_nil _ (List.cons_ne_nil _ _)] at hslash
    obtain ⟨c, cs, hcs⟩ := List.exists_cons_of_ne_nil hlast.ne_nil
    rw [hcs, List.getLast?_cons_cons, ← hcs] at hslash
    exact List.mem_of_getLast? hslash
  | page =>
    rw [preceded_concat, preceded_concat, if_pos (by simp)]
    simp

theorem handleRequest_names (hpath : Names path front last)
    (hnames : ∀ n ∈ front ++ [last], FileName n) (hrdb : front.head? ≠ some (ascii "rdb"))
    (henc : PercentEncodes m.uri path) (rep : Reply) (w : ν) :
    handleRequest gw m.request rep w = (.ok (serveFile gw path rep), w) := by
  have hdecode : urlDecode m.request.uri = some path := urlDecode_of_encodes henc
  obtain ⟨name, hname, hcut, hnodots⟩ : ∃ name, slash ∉ name ∧
    path = preceded slash (front ++ [name]) ∧
      ¬ ascii ".." <:+: name := by
    cases hpath with
    | file =>
      have hlast := hnames last (by simp)
      exact ⟨last, hlast.no_slash, rfl, hlast.no_dots⟩
    | page => exact ⟨[], by simp, rfl, by decide⟩
  have hfront : ∀ n ∈ front, FileName n := fun n hn => hnames n (List.mem_append_left _ hn)
  have hdots : ¬ ascii ".." <:+: path := by
    intro hin
    rw [hcut] at hin
    obtain ⟨n, hn, hdot⟩ := infix_preceded (by decide) (by decide) hin
    cases List.mem_append.mp hn with
    | inl hf => exact (hfront n hf).no_dots hdot
    | inr hl => exact hnodots (List.mem_singleton.mp hl ▸ hdot)
  have hhead : path.head? = some slash := hcut ▸ head_preceded slash front name
  have habsolute : ¬ (path.isEmpty ∨ path.head? ≠ some slash ∨ ascii ".." <:+: path) := by
    obtain ⟨rest, hrest⟩ := List.head?_eq_some_iff.mp hhead
    simp only [not_or, not_not]
    exact ⟨by simp [hrest], hhead, hdots⟩
  have hcall : RdbHandler.isRDBcall path = false :=
    hcut ▸ not_rdb_call (fun n hn => (hfront n hn).no_slash) hname hrdb
  rw [handleRequest, hdecode]
  simp only [if_neg habsolute, hcall, if_neg Bool.false_ne_true]

end Requests

/-- For every gateway whose document root is a directory of the machine without symbolic links,
every request whose target spells the names of a path in it, in any encoding, with any headers, in
any reads and whatever follows it: the client receives the file of that path, byte by byte and under
the type of its extension, where there is one, and the stock reply that nothing is found, where the
path leads nowhere. A path that ends with a slash is that of the page of its directory; no name has
two dots in a row, and the first directory is not `rdb`. -/
theorem file_received (gw : Gateway ν) (fs : FileSystem) {dir : Node Bytes Bytes} {m : Message}
    {path last : Bytes} {front : List Bytes} (hroot : 0 ∉ gw.docRoot)
    (hdir : fs.nodeAt (gw.docRoot ++ [slash]) = some dir) (hfree : dir.LinkFree)
    (hpath : Names path front last) (hnames : ∀ n ∈ front ++ [last], FileName n)
    (hrdb : front.head? ≠ some (ascii "rdb")) (henc : PercentEncodes m.uri path)
    {reads : List Bytes} (hreads : m.text <+: reads.flatten) (w : ν) :
    (∀ text, dir.descend ((front ++ [last]).map .into) = some (.file text) →
      Receives (gw.on fs) reads w ⟨200, [⟨ascii "Content-Length", sizeText text.length⟩,
        ⟨ascii "Content-Type", extensionToType (nameExtension last)⟩], text⟩) ∧
    (dir.descend ((front ++ [last]).map .into) = none →
      Receives (gw.on fs) reads w ((stockReply .notFound).response .notFound)) := by
  have hlast := hnames last (by simp)
  have hopen : (gw.on fs).openFile
      (cString ((gw.on fs).docRoot ++ preceded slash (front ++ [last]))) =
      (dir.descend ((front ++ [last]).map .into)).bind fs.read :=
    openFile_names hroot hdir hfree hnames
  have hhandle : handleRequest (gw.on fs) m.request Reply.start w =
      (.ok (serveFile (gw.on fs) path Reply.start), w) :=
    handleRequest_names hpath hnames hrdb henc Reply.start w
  have hext : extensionOf (preceded slash (front ++ [last])) = nameExtension last := by
    rw [preceded_concat, extensionOf_last hlast.no_slash]
  constructor
  · intro text hfile
    have hserve : serveFile (gw.on fs) path Reply.start =
        ⟨some .ok, [⟨ascii "Content-Length", sizeText text.length⟩,
          ⟨ascii "Content-Type", extensionToType (nameExtension last)⟩], text⟩ := by
      rw [hfile] at hopen
      simp only [serveFile, hpath.page_path hlast, hopen, hext,
        appendBlocks_eq (show 0 < 512 by omega)]
      rfl
    have hsend := serveFile_sendable (gw.on fs) path Reply.start
    rw [hserve] at hhandle hsend
    exact receives_reply hreads hsend rfl hhandle
  · intro hnone
    have hserve : serveFile (gw.on fs) path Reply.start = stockReply .notFound := by
      rw [hnone] at hopen
      simp only [serveFile, hpath.page_path hlast, hopen]
      rfl
    rw [hserve] at hhandle
    exact receives_reply hreads (stockReply_sendable .notFound) rfl hhandle

/-- A style sheet in a directory, asked for in two reads and with an escape -/
theorem file_received_sample :
    let text := ascii "p{}"
    let dir : Node Bytes Bytes := .dir [(ascii "s", .dir [(ascii "a.css", .file text)])]
    let fs : FileSystem := ⟨.dir [(ascii "srv", dir)], ⟨.dir [], []⟩, 40, none⟩
    Receives (fileGateway.on fs) [ascii "GET /s/%61.c", ascii "ss HTTP/1.1\r\nA: b\r\n\r\n"] ()
      ⟨200, [⟨ascii "Content-Length", ascii "3"⟩, ⟨ascii "Content-Type", ascii "text/css"⟩],
        text⟩ := by
  intro text dir fs
  have huri : (ascii "/s/%61.css").all (fun c => decide (c ≠ ch ' ') && !isCtl c) =
      true := by decide
  let m : Message := ⟨ascii "GET", ascii "/s/%61.css", ascii "1", ascii "1",
    [.header ⟨ascii "A", ascii "b"⟩ (wellFormed_named (by decide) (plain_of_all (by decide)))],
    by decide, List.all_eq_true.mp (by decide), fun c hc => by
    simpa using List.all_eq_true.mp huri c hc,
    by decide, List.all_eq_true.mp (by decide), by decide, List.all_eq_true.mp (by decide),
    by simp [Line.isHeader]⟩
  have hnames : ∀ n ∈ [ascii "s"] ++ [ascii "a.css"], FileName n := by
    refine List.forall_mem_cons.mpr ⟨⟨by decide, by decide, by decide, by decide, by decide⟩,
      List.forall_mem_cons.mpr ⟨⟨by decide, by decide, by decide, by decide, by decide⟩, by simp⟩⟩
  have henc : PercentEncodes m.uri (preceded slash ([ascii "s"] ++ [ascii "a.css"])) :=
    .literal (by decide) (by decide)
      (.literal (by decide) (by decide) (.literal (by decide) (by decide)
      (.escaped (h := 6) (l := 1) rfl rfl (by decide) (.literal (by decide) (by decide)
      (.literal (by decide) (by decide) (.literal (by decide) (by decide)
      (.literal (by decide) (by decide) .nil)))))))
  have hdir : fs.nodeAt (fileGateway.docRoot ++ [slash]) = some dir := rfl
  have hfree : dir.LinkFree :=
    .dir (List.forall_mem_singleton.mpr (.dir (List.forall_mem_singleton.mpr (.file text))))
  have hreads : m.text <+: [ascii "GET /s/%61.c", ascii "ss HTTP/1.1\r\nA: b\r\n\r\n"].flatten :=
    ⟨[], rfl⟩
  have hsize : sizeText text.length = ascii "3" := by decide
  have htype : extensionToType (nameExtension (ascii "a.css")) = ascii "text/css" := by decide
  rw [← hsize, ← htype]
  exact (file_received fileGateway fs (by decide) hdir hfree
    (.file [ascii "s"] (ascii "a.css")) hnames
    (by decide) henc hreads ()).1 text rfl

end ReminderSuite
