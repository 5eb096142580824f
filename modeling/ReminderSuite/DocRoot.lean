import ReminderSuite.FileTree
import ReminderSuite.Answering

/-! The document root: which files a request can reach, and that it gets the one it names. -/
namespace ReminderSuite
open Delimited FileTree RequestHandler RequestParser
variable {ν : Type}

def component (name : Bytes) : Step Bytes :=
  if name = [] ∨ name = [dot] then .stay else if name = [dot, dot] then .up else .into name

def steps (path : Bytes) : List (Step Bytes) := (path.splitOn slash).map component

structure FileSystem where
  root : Node Bytes Bytes
  cwd : Place Bytes Bytes
  /-- how many links the lookup of one path follows -/
  maxLinks : Nat
  /-- what is read from a directory, where the platform lets it be opened as a file -/
  directory : Option Bytes

namespace FileSystem

def resolve (fs : FileSystem) (path : Bytes) : Option (Place Bytes Bytes) :=
  if path = [] then none
  else
    let start := if path.head? = some slash then ⟨fs.root, []⟩ else fs.cwd
    (start.walk fs.maxLinks (steps path)).map Prod.snd

def nodeAt (fs : FileSystem) (path : Bytes) : Option (Node Bytes Bytes) :=
  (fs.resolve path).map Place.here

def read (fs : FileSystem) : Node Bytes Bytes → Option Bytes
  | .file text => some text
  | .dir _ => fs.directory
  -- a path leads through a link
  | .link _ _ => none

def openFile (fs : FileSystem) (path : Bytes) : Option Bytes := (fs.nodeAt path).bind fs.read

def LinkFreeBelow (fs : FileSystem) (root : Bytes) : Prop :=
  ∀ dir, fs.nodeAt (root ++ [slash]) = some dir → dir.LinkFree

end FileSystem

def RequestHandler.Gateway.on (gw : Gateway ν) (fs : FileSystem) : Gateway ν :=
  { gw with openFile := fs.openFile }

section Paths
variable {path rest : Bytes}

theorem steps_append (root rest : Bytes) :
    steps (root ++ slash :: rest) = steps root ++ steps rest := by
  rw [steps, steps, steps, List.splitOn_append_cons_self, List.map_append]

theorem steps_ne_up (h : ¬ ascii ".." <:+: path) : ∀ s ∈ steps path, s ≠ .up := by
  intro s hs heq
  subst heq
  obtain ⟨name, hname, hup⟩ := List.mem_map.mp hs
  have hdots : name = ascii ".." := by
    rw [component] at hup
    split_ifs at hup with h1 h2
    exact h2
  have hinfix := infix_intercalate hname [slash]
  rw [List.intercalate_splitOn, hdots] at hinfix
  exact h hinfix

theorem steps_ne_nil (path : Bytes) : steps path ≠ [] := by simp [steps]

/-- Below a directory without links, a path that does not climb is looked up in that directory
alone. -/
theorem nodeAt_below {fs : FileSystem} {root : Bytes} (hfree : fs.LinkFreeBelow root)
    (h : ¬ ascii ".." <:+: rest) :
    fs.nodeAt (root ++ slash :: rest) =
      (fs.nodeAt (root ++ [slash])).bind fun n => n.descend (steps rest) := by
  have hhead : (root ++ slash :: rest).head? = (root ++ [slash]).head? := by
    cases root <;> rfl
  have hstay : steps [] = [.stay] := rfl
  have hne (more : Bytes) : root ++ slash :: more ≠ [] := by simp
  unfold FileSystem.LinkFreeBelow at hfree
  simp only [FileSystem.nodeAt, FileSystem.resolve, if_neg (hne _), hhead, steps_append, hstay,
    Place.walk_append] at hfree ⊢
  cases hwalk : Place.walk fs.maxLinks
    (if (root ++ [slash]).head? = some slash then ⟨fs.root, []⟩ else fs.cwd) (steps root) with
  | none => rfl
  | some r =>
    simp only [hwalk, Option.bind_some] at hfree ⊢
    rw [← Place.walk_stay r.1 r.2 (steps_ne_nil rest)]
    cases hdir : r.2.walk r.1 [.stay] with
    | none => rfl
    | some q =>
      have hbelow : q.2.here.LinkFree := hfree _ (by rw [hdir]; rfl)
      simp only [Option.bind_some, Option.map_some, Option.map_map]
      exact Place.walk_here hbelow (steps_ne_up h)

theorem openFile_below {fs fs' : FileSystem} {root : Bytes}
    (hsame : fs.nodeAt (root ++ [slash]) = fs'.nodeAt (root ++ [slash]))
    (hfree : fs.LinkFreeBelow root) (hdir : fs.directory = fs'.directory)
    (h : ¬ ascii ".." <:+: rest) :
    fs.openFile (root ++ slash :: rest) = fs'.openFile (root ++ slash :: rest) := by
  have hread : fs.read = fs'.read := by
    funext n
    cases n with
    | dir entries => exact hdir
    | file _ | link _ _ => rfl
  have hfree' : fs'.LinkFreeBelow root := fun dir hdir' => hfree dir (hsame.trans hdir')
  rw [FileSystem.openFile, FileSystem.openFile, nodeAt_below hfree h, nodeAt_below hfree' h, hsame,
    hread]

theorem cString_below {root : Bytes} (hroot : 0 ∉ root) (rest : Bytes) :
    cString (root ++ slash :: rest) = root ++ slash :: cString rest := by
  have hplain : ∀ c ∈ root, decide (c ≠ 0) = true := fun c hc =>
    decide_eq_true fun heq => hroot (heq ▸ hc)
  have hslash : slash ≠ 0 := by decide
  rw [cString, List.takeWhile_append_of_pos hplain, List.takeWhile_cons,
    if_pos (decide_eq_true hslash)]
  rfl

theorem not_dots_cString (h : ¬ ascii ".." <:+: path) : ¬ ascii ".." <:+: cString path :=
  fun hdots => h (hdots.trans (List.takeWhile_prefix _).isInfix)

theorem not_dots_index (hlast : path.getLast? = some slash) (h : ¬ ascii ".." <:+: path) :
    ¬ ascii ".." <:+: path ++ ascii "index.html" := by
  obtain ⟨front, rfl⟩ := List.getLast?_eq_some_iff.mp hlast
  intro hdots
  rw [List.append_assoc] at hdots
  cases infix_append_cons (by decide) hdots with
  | inl hfront => exact h (hfront.trans (List.infix_append' [] front [slash]))
  | inr hindex => exact absurd hindex (by decide)

end Paths

theorem serveFile_confined (gw : Gateway ν) {fs fs' : FileSystem} (hroot : 0 ∉ gw.docRoot)
    (hsame : fs.nodeAt (gw.docRoot ++ [slash]) = fs'.nodeAt (gw.docRoot ++ [slash]))
    (hfree : fs.LinkFreeBelow gw.docRoot) (hdir : fs.directory = fs'.directory) {path : Bytes}
    (hhead : path.head? = some slash) (hdots : ¬ ascii ".." <:+: path) (rep : Reply) :
    serveFile (gw.on fs) path rep = serveFile (gw.on fs') path rep := by
  have hopen : ∀ p : Bytes, p.head? = some slash → ¬ ascii ".." <:+: p →
      fs.openFile (cString (gw.docRoot ++ p)) = fs'.openFile (cString (gw.docRoot ++ p)) := by
    intro p hp hpdots
    obtain ⟨rest, rfl⟩ := List.head?_eq_some_iff.mp hp
    have hrest : ¬ ascii ".." <:+: rest :=
      fun h => hpdots (h.trans (List.suffix_cons slash rest).isInfix)
    rw [cString_below hroot]
    exact openFile_below hsame hfree hdir (not_dots_cString hrest)
  have hpage : fs.openFile (cString (gw.docRoot ++
        if path.getLast? = some slash then path ++ ascii "index.html" else path)) =
      fs'.openFile (cString (gw.docRoot ++
        if path.getLast? = some slash then path ++ ascii "index.html" else path)) := by
    split_ifs with hlast
    · exact hopen _ (by rw [List.head?_append, hhead]; rfl) (not_dots_index hlast hdots)
    · exact hopen path hhead hdots
  simp only [serveFile, Gateway.on, hpage]

/-- For every gateway, all bytes of a client in any reads and any two machines with the same tree
below the document root, without symbolic links: the gateway does the same on both. So no file
outside that tree is ever part of a reply. -/
theorem replies_confined (gw : Gateway ν) (fs fs' : FileSystem) (hroot : 0 ∉ gw.docRoot)
    (hsame : fs.nodeAt (gw.docRoot ++ [slash]) = fs'.nodeAt (gw.docRoot ++ [slash]))
    (hfree : fs.LinkFreeBelow gw.docRoot) (hdir : fs.directory = fs'.directory) (reads : List Bytes)
    (w : ν) :
    Connection.start.serve (handleRequest (gw.on fs)) reads w =
      Connection.start.serve (handleRequest (gw.on fs')) reads w := by
  have hhandle : handleRequest (gw.on fs) = handleRequest (gw.on fs') := by
    funext req rep v
    rw [handleRequest, handleRequest]
    split
    · rfl
    · next path _ =>
      split_ifs with hbad hrdb
      · rfl
      · rfl
      · obtain ⟨-, hhead, hdots⟩ : _ ∧ _ ∧ _ := by simpa only [not_or, not_not] using hbad
        rw [serveFile_confined gw hroot hsame hfree hdir hhead hdots]
  rw [hhandle]

section Sample

def oneEntryMachine (entry : Node Bytes Bytes) (secret : Bytes) : FileSystem :=
  ⟨.dir [(ascii "srv", .dir [(ascii "a", entry)]), (ascii "etc", .file secret)],
    ⟨.dir [], []⟩, 40, none⟩

def fileGateway : Gateway Unit :=
  ⟨ascii "/srv", fun _ => none, ⟨fun w => (false, w), fun _ result w => ((false, result), w)⟩,
    plainTree, fun _ => []⟩

/-- Two machines that differ in a file beside the document root, and a request for one below it -/
theorem replies_confined_sample :
    let machine := oneEntryMachine (.file (ascii "hi"))
    let served := fun fs => Connection.start.serve (handleRequest (fileGateway.on fs))
      [ascii "GET /%61 HTTP/1.0\r\n\r\n"] ()
    served (machine []) = served (machine [ch 'x']) ∧
    (served (machine [])).1.map (fun conn => conn.written.map Reply.content) =
      .ok [ascii "hi"] := by
  intro machine served
  have hfree : (machine []).LinkFreeBelow fileGateway.docRoot := by
    intro dir hdir
    obtain rfl : Node.dir [(ascii "a", .file (ascii "hi"))] = dir := Option.some.inj hdir
    exact .dir (List.forall_mem_singleton.mpr (.file _))
  exact ⟨replies_confined fileGateway (machine []) (machine [ch 'x']) (by decide) rfl
    hfree rfl _ (), by decide +kernel⟩

/-- A link below the root leads out of it. -/
example : (oneEntryMachine (.link true [.into (ascii "etc")]) (ascii "x")).openFile
    (ascii "/srv/a") =
    some (ascii "x") := by decide +kernel

end Sample
end ReminderSuite
