import ExtHttp.Multipart
import ExtHttp.QueryRoundtrip

/-!
# Forms

`php_http_message_body_add_form` goes through nested arrays of fields and of files. The body gets a
part for every leaf of the fields, named by the path to it, and then one for every file, up to the
first one that cannot be opened.
-/
namespace ExtHttp

/-- What the source takes from PHP: `php_basename`, and the contents of a file that can be
opened. -/
structure FormLib where
  basename : Bytes → Bytes
  openFile : Bytes → Option Bytes

/-- A key as it is printed. -/
def ArrayKey.formText : ArrayKey → Bytes
  | .str s => cString s
  | .long n => formatLong (n % 2 ^ 64)

/-- `format_key`, where a prefix that is not there is an empty one. -/
def formatKey (key : ArrayKey) (name : Bytes) : Bytes :=
  if name ≠ [] then name ++ openBracket :: (key.formText ++ [closeBracket]) else key.formText

/-- A table with a `name`, a `type` and a `file`, and maybe with `data`. -/
structure FormFile where
  name : Bytes
  ctype : Bytes
  path : Bytes
  data : Option Bytes
  deriving DecidableEq, Repr

/-- The single entry that a table is, if it is one. -/
def fileOf (files : Entries) : Option FormFile :=
  match Entries.find files (.str (ascii "name")), Entries.find files (.str (ascii "type")),
    Entries.find files (.str (ascii "file")) with
  | some name, some ctype, some file =>
      some ⟨name.toStr, ctype.toStr, file.toStr,
        (Entries.find files (.str (ascii "data"))).map Value.toStr⟩
  | _, _, _ => none

/-- The stream of a file: that of its data, or the file is opened. -/
def FormFile.input (L : FormLib) (f : FormFile) : Option Bytes :=
  match f.data with
  | some data => some data
  | none => L.openFile (cString f.path)

/-- The prefix for a table of files: an index does not show up in it. -/
def filesName (key : ArrayKey) (name : Bytes) : Bytes :=
  match key with
  | .str _ => formatKey key name
  | .long _ => name

namespace MessageBody

mutual

/-- A field, or what is nested in it. The boundary is asked of the random generator once, which
gives `num`. -/
def addRecursiveField (num : UInt32 × UInt32) (name : Bytes) : Value → MessageBody → MessageBody
  | .array fields, body => addRecursiveFields num name fields body
  | .null, body => body.addFormField num name Value.null.toStr
  | .bool b, body => body.addFormField num name (Value.bool b).toStr
  | .long n, body => body.addFormField num name (Value.long n).toStr
  | .str s, body => body.addFormField num name (Value.str s).toStr

/-- `add_recursive_fields` -/
def addRecursiveFields (num : UInt32 × UInt32) (name : Bytes) :
    List (ArrayKey × Value) → MessageBody → MessageBody
  | [], body => body
  | (key, val) :: fields, body =>
      addRecursiveFields num name fields (addRecursiveField num (formatKey key name) val body)

end

/-- The stream entry of `add_recursive_files`. -/
def addStreamEntry (L : FormLib) (num : UInt32 × UInt32) (name : Bytes) (f : FormFile)
    (body : MessageBody) :
    Bool × MessageBody :=
  match f.input L with
  | none => (false, body)
  | some input => (true, body.addFormFile L.basename num
    (formatKey (.str f.name) name) f.ctype f.path input)

mutual

/-- `add_recursive_files`; what is no array is passed over. -/
def addRecursiveFiles (L : FormLib) (num : UInt32 × UInt32) (name : Bytes) :
    Value → MessageBody → Bool × MessageBody
  | .array files, body =>
      match fileOf files with
      | some f => addStreamEntry L num name f body
      | none => filesLoop L num name files body
  | .null, body => (true, body)
  | .bool _, body => (true, body)
  | .long _, body => (true, body)
  | .str _, body => (true, body)

/-- The loop of `add_recursive_files` -/
def filesLoop (L : FormLib) (num : UInt32 × UInt32) (name : Bytes) :
    List (ArrayKey × Value) → MessageBody → Bool × MessageBody
  | [], body => (true, body)
  | (key, val) :: files, body =>
      let o := addRecursiveFiles L num (filesName key name) val body
      if o.1 then filesLoop L num name files o.2 else (false, o.2)

end

/-- `php_http_message_body_add_form` -/
def addForm (L : FormLib) (num : UInt32 × UInt32) (body : MessageBody)
    (fields files : Option Entries) :
    Bool × MessageBody :=
  let body := fields.elim body fun fields => addRecursiveFields num [] fields body
  files.elim (true, body) fun files => addRecursiveFiles L num [] (.array files) body

end MessageBody

/-! ### What a form consists of -/

/-- The name that a path makes: the first key that is not empty, and the others behind it in
brackets. -/
def formName (path : Path) : Bytes :=
  match path.dropWhile fun key => key.formText = [] with
  | [] => []
  | key :: keys => key.formText ++ keys.flatMap fun key =>
      openBracket :: (key.formText ++ [closeBracket])

/-- What an index adds to the path to a file: nothing. -/
def namedKey : ArrayKey → Path
  | .str s => [.str s]
  | .long _ => []

mutual

/-- The files and the paths to them. -/
def Value.files : Value → List (Path × FormFile)
  | .array ht =>
      match fileOf ht with
      | some f => [([], f)]
      | none => filesIn ht
  | .null => []
  | .bool _ => []
  | .long _ => []
  | .str _ => []

def filesIn : List (ArrayKey × Value) → List (Path × FormFile)
  | [] => []
  | (key, v) :: ht => (v.files.map fun l => (namedKey key ++ l.1, l.2)) ++ filesIn ht

end

section
variable (naming : Path → Bytes)

/-- A leaf as a field. -/
def fieldCall (l : Path × Bytes) : AddCall := .formField (naming l.1) l.2

/-- The files up to the first that cannot be opened. -/
def fileCalls (L : FormLib) : List (Path × FormFile) → List AddCall
  | [] => []
  | l :: ls =>
      match l.2.input L with
      | none => []
      | some input => .formFile (naming (l.1 ++ [.str l.2.name])) l.2.ctype l.2.path input ::
        fileCalls L ls

end

/-- The leaves and the files of a form. -/
def formLeaves (fields : Option Entries) : List (Path × Bytes) := fields.elim [] leavesOf

def formFiles (files : Option Entries) : List (Path × FormFile) :=
  files.elim [] fun files => (Value.array files).files

/-- The parts of a form. -/
def formCalls (L : FormLib) (fields files : Option Entries) : List AddCall :=
  (formLeaves fields).map (fieldCall formName) ++ fileCalls formName L (formFiles files)

/-! ### Names -/

/-- The name of a path below a prefix. -/
def nameBelow (name : Bytes) (path : Path) : Bytes :=
  path.foldl (fun name key => formatKey key name) name

theorem nameBelow_cons (name : Bytes) (key : ArrayKey) (path : Path) :
    nameBelow name (key :: path) = nameBelow (formatKey key name) path := rfl

/-- Behind a prefix that is not empty, every key is put in brackets. -/
theorem nameBelow_prefixed (path : Path) {name : Bytes} (hname : name ≠ []) :
    nameBelow name path =
      name ++ path.flatMap fun key => openBracket :: (key.formText ++ [closeBracket]) := by
  induction path generalizing name with
  | nil => exact (List.append_nil name).symm
  | cons key path ih =>
    have hkey : formatKey key name = name ++ openBracket :: (key.formText ++ [closeBracket]) :=
      if_pos hname
    rw [nameBelow_cons, hkey, ih (by simp), List.flatMap_cons, List.append_assoc]

/-- The prefixes that are handed down make the name. -/
theorem nameBelow_nil : nameBelow [] = formName := by
  funext path
  induction path with
  | nil => rfl
  | cons key path ih =>
    have hkey : formatKey key [] = key.formText := if_neg (not_not.mpr rfl)
    rw [nameBelow_cons, hkey]
    unfold formName
    by_cases hempty : key.formText = []
    · rw [List.dropWhile_cons_of_pos (by simpa using hempty), hempty]
      exact ih
    · rw [List.dropWhile_cons_of_neg (by simpa using hempty)]
      exact nameBelow_prefixed path hempty

example : formName [.str (ascii "a"), .str (ascii "b"), .long 0] = ascii "a[b][0]" := by decide

theorem nameBelow_namedKey (key : ArrayKey) (path : Path) (name : Bytes) :
    nameBelow name (namedKey key ++ path) = nameBelow (filesName key name) path := by
  cases key with
  | long n => rfl
  | str s => rfl

/-! ### Going through the arrays -/

section
variable (L : FormLib) (num : UInt32 × UInt32)

/-- Parts are added one after the other. -/
def addParts (calls : List AddCall) (body : MessageBody) : MessageBody :=
  calls.foldl (fun body call => AddCall.run L.basename body (num, call)) body

theorem addParts_append (calls calls' : List AddCall) (body : MessageBody) :
    addParts L num (calls ++ calls') body = addParts L num calls' (addParts L num calls body) :=
  List.foldl_append

/-- All files can be opened. -/
def allOpen (ls : List (Path × FormFile)) : Bool := ls.all fun l => (l.2.input L).isSome

mutual

theorem addRecursiveField_eq (name : Bytes) (body : MessageBody) :
    ∀ v, body.addRecursiveField num name v = addParts L num
      (v.leaves.map (fieldCall (nameBelow name))) body
  | .array fields => addRecursiveFields_eq name body fields
  | .null => rfl
  | .bool _ => rfl
  | .long _ => rfl
  | .str _ => rfl

theorem addRecursiveFields_eq (name : Bytes) (body : MessageBody) :
    ∀ fields, body.addRecursiveFields num name fields =
      addParts L num ((leavesOf fields).map (fieldCall (nameBelow name))) body
  | [] => rfl
  | (key, val) :: fields => by
    have hval := addRecursiveField_eq (formatKey key name) body val
    rw [MessageBody.addRecursiveFields, hval, addRecursiveFields_eq, leavesOf, List.map_append,
      addParts_append, List.map_map]
    rfl

end

/-- Files are added behind others, unless one of these cannot be opened. -/
theorem fileCalls_append (naming : Path → Bytes) (ls ls' : List (Path × FormFile)) :
    fileCalls naming L (ls ++ ls') =
      fileCalls naming L ls ++ if allOpen L ls = true then fileCalls naming L ls' else [] := by
  induction ls with
  | nil => simp [fileCalls, allOpen]
  | cons l ls ih =>
    rw [List.cons_append, fileCalls, fileCalls]
    cases hinput : l.2.input L with
    | none => simp [allOpen, hinput]
    | some input =>
      have hall : allOpen L (l :: ls) = allOpen L ls := by simp [allOpen, hinput]
      rw [ih, hall]
      rfl

theorem length_fileCalls (naming : Path → Bytes) {ls : List (Path × FormFile)}
    (h : allOpen L ls = true) :
    (fileCalls naming L ls).length = ls.length := by
  induction ls with
  | nil => rfl
  | cons l ls ih =>
    obtain ⟨hl, hls⟩ := (Bool.and_eq_true _ _).mp h
    obtain ⟨input, hinput⟩ := Option.isSome_iff_exists.mp hl
    rw [fileCalls, hinput]
    exact congrArg (· + 1) (ih hls)

theorem fileCalls_named (key : ArrayKey) (name : Bytes) (ls : List (Path × FormFile)) :
    fileCalls (nameBelow name) L (ls.map fun l => (namedKey key ++ l.1, l.2)) =
      fileCalls (nameBelow (filesName key name)) L ls := by
  induction ls with
  | nil => rfl
  | cons l ls ih =>
    rw [List.map_cons, fileCalls, fileCalls, ih]
    dsimp only
    rw [List.append_assoc, nameBelow_namedKey]

theorem allOpen_named (key : ArrayKey) (ls : List (Path × FormFile)) :
    allOpen L (ls.map fun l => (namedKey key ++ l.1, l.2)) = allOpen L ls := by
  rw [allOpen, List.all_map]
  rfl

theorem addStreamEntry_eq (name : Bytes) (body : MessageBody) (f : FormFile) :
    body.addStreamEntry L num name f =
      (allOpen L [([], f)], addParts L num (fileCalls (nameBelow name) L [([], f)]) body) := by
  unfold MessageBody.addStreamEntry
  rw [fileCalls]
  cases hinput : f.input L with
  | none => simp [allOpen, hinput, addParts]
  | some input =>
    simp only [allOpen, List.all_cons, List.all_nil, hinput]
    rfl

mutual

theorem addRecursiveFiles_eq (name : Bytes) (body : MessageBody) :
    ∀ v, body.addRecursiveFiles L num name v =
      (allOpen L v.files, addParts L num (fileCalls (nameBelow name) L v.files) body)
  | .array files => by
    rw [MessageBody.addRecursiveFiles, Value.files]
    cases fileOf files with
    | some f => exact addStreamEntry_eq L num name body f
    | none => exact filesLoop_eq name body files
  | .null => rfl
  | .bool _ => rfl
  | .long _ => rfl
  | .str _ => rfl

theorem filesLoop_eq (name : Bytes) (body : MessageBody) :
    ∀ files, body.filesLoop L num name files =
      (allOpen L (filesIn files), addParts L num (fileCalls (nameBelow name) L
        (filesIn files)) body)
  | [] => rfl
  | (key, val) :: files => by
    have hval := addRecursiveFiles_eq (filesName key name) body val
    have hall : allOpen L (filesIn ((key, val) :: files)) =
        (allOpen L val.files && allOpen L (filesIn files)) := by
      rw [filesIn, allOpen, List.all_append]
      exact congrArg (· && allOpen L (filesIn files)) (allOpen_named L key val.files)
    rw [MessageBody.filesLoop, hval, hall, filesIn, fileCalls_append, allOpen_named,
      fileCalls_named]
    dsimp only
    cases allOpen L val.files with
    | true =>
      rw [if_pos rfl, if_pos rfl, addParts_append, filesLoop_eq, Bool.true_and]
    | false =>
      rw [if_neg (by decide), if_neg (by decide), List.append_nil, Bool.false_and]

end

theorem addForm_eq (body : MessageBody) (fields files : Option Entries) :
    body.addForm L num fields files =
      (allOpen L (formFiles files), addParts L num (formCalls L fields files) body) := by
  have hfields : fields.elim body (fun fields => body.addRecursiveFields num [] fields) =
      addParts L num ((formLeaves fields).map (fieldCall formName)) body := by
    cases fields with
    | none => rfl
    | some fields =>
      rw [← nameBelow_nil]
      exact addRecursiveFields_eq L num [] body fields
  rw [MessageBody.addForm, hfields, formCalls, addParts_append]
  cases files with
  | none => rfl
  | some files =>
    rw [← nameBelow_nil]
    exact addRecursiveFiles_eq L num [] _ (.array files)

variable {L num} {body : MessageBody} {boundary : CString} {parts : List Bytes}

theorem addParts_holds (h : body.Holds boundary parts) (calls : List AddCall) :
    (addParts L num calls body).Holds boundary (parts ++ calls.map (AddCall.text L.basename)) := by
  have hall := h.calls L.basename (calls.map fun call => (num, call))
  rw [List.foldl_map, List.map_map] at hall
  exact hall

theorem addParts_empty (h : body.stream.data = []) (call : AddCall) (calls : List AddCall) :
    (addParts L num (call :: calls) body).Holds (body.getBoundary num).1
      ((call :: calls).map (AddCall.text L.basename)) := by
  have hfirst := AddCall.run_opened L.basename (num, call) (MessageBody.boundaryOpen_empty h num)
  exact addParts_holds hfirst calls

variable (L num)

/-- A form puts a part into the body for every leaf of the fields and for every file up to the first
one that cannot be opened, in their order and behind the parts that are there, and it succeeds if
all files can be opened. Without a leaf and a file, the body is as it was. -/
theorem addForm_parts (body : MessageBody) (fields files : Option Entries) :
    let o := body.addForm L num fields files
    let texts := (formCalls L fields files).map (AddCall.text L.basename)
    (o.1 = true ↔ ∀ l ∈ formFiles files, (l.2.input L).isSome = true) ∧
    (o.1 = true → (formCalls L fields files).length = (formLeaves fields).length +
      (formFiles files).length) ∧
    (∀ boundary parts, body.Holds boundary parts → o.2.Holds boundary (parts ++ texts)) ∧
    (body.stream.data = [] → if texts = [] then o.2 = body
      else o.2.Holds (body.getBoundary num).1 texts) := by
  dsimp only
  rw [addForm_eq]
  refine ⟨List.all_eq_true, fun hopen => ?_, fun boundary parts h => addParts_holds h _,
    fun h => ?_⟩
  · rw [formCalls, List.length_append, List.length_map, length_fileCalls L formName hopen]
  · cases hcalls : formCalls L fields files with
    | nil => rfl
    | cons call calls =>
      rw [if_neg (by simp)]
      exact addParts_empty h call calls

end

end ExtHttp
