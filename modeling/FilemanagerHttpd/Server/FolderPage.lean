import FilemanagerHttpd.Server.RespBuf
import FilemanagerHttpd.Server.Folder

/-!
# The page that lists a folder
-/

namespace FilemanagerHttpd.Server

open Library

/-- Lines of text, each ended by a line feed. -/
def asciiLines (lines : List String) : Bytes := lines.flatMap fun l => ascii l ++ [lf]

def responseHeader : Bytes := asciiLines [
  "<script>",
  "function showOptions(th) \x7b",
  "    th.parentNode.nextElementSibling.style.display = \"table-row\";",
  "    th.firstElementChild.innerHTML = \"&minus;\";",
  "    th.onclick = function() \x7b hideOptions(th); \x7d;",
  "\x7d",
  "function hideOptions(th) \x7b",
  "    th.parentNode.nextElementSibling.style.display = \"none\";",
  "    th.firstElementChild.textContent = \"+\";",
  "    th.onclick = function() \x7b showOptions(th); \x7d;",
  "\x7d",
  "function showHideHidden(th) \x7b",
  "    var rows = document.getElementsByTagName('tr');",
  "    for(var i = 0; i < rows.length; ++i) \x7b",
  "        var row = rows.item(i);",
  "        if( row.getAttribute('class') == 'rhidden' ) \x7b",
  "            row.style.display = th.checked ? 'table-row' : 'none';",
  "        \x7d",
  "    \x7d",
  "\x7d",
  "function checkRename(th) \x7b",
  "    var res = false;",
  "    var fname = th.form.elements.namedItem('new_name').value;",
  "    if( fname === '' ) \x7b",
  "        alert('please specify the file name');",
  "    \x7delse if( fname.indexOf('/') >= 0 ) \x7b",
  "        alert('slash in name disallowed');",
  "    \x7delse",
  "        res = true;",
  "    return res;",
  "\x7d",
  "function confirmUpload(th) \x7b",
  "    var fname = th.form.elements.namedItem('file').value;",
  "    var repl = th.form.elements.namedItem('new_cont').value;",
  "    if( repl == '' ) \x7b",
  "        alert('please choose a file');",
  "        return false;",
  "    \x7d",
  "    repl = repl.replace(/.*[\\/\\\\]/, '');",
  "    repl = repl == fname ? '' : ' using \"' + repl + '\"';",
  "    return confirm('replace \"' + fname+ '\"' + repl + ' ?');",
  "\x7d",
  "function confirmDel(th) \x7b",
  "    var fname = th.form.elements.namedItem('file').value;",
  "    var recu = th.form.elements.namedItem('del_recursive');",
  "    recu = recu != null && recu.checked ? ' recursively' : '';",
  "    return confirm('delete' + recu + ' \"' + fname + '\" ?');",
  "\x7d",
  "function checkCreateDir(th) \x7b",
  "    var res = false;",
  "    var dname = th.form.elements.namedItem('new_dir').value;",
  "    if( dname === '' ) \x7b",
  "        alert('please specify the directory name');",
  "    \x7delse if( dname.indexOf('/') >= 0 ) \x7b",
  "        alert('slash in name disallowed');",
  "    \x7delse",
  "        res = true;",
  "    return res;",
  "\x7d",
  "function checkAddFile(th) \x7b",
  "    if( th.form.elements.namedItem('file').value == '' ) \x7b",
  "        alert('please choose a file');",
  "        return false;",
  "    \x7d",
  "    return true;",
  "\x7d",
  "</script>",
  "<style>",
  "body \x7b background-color: #F2FAFC; \x7d",
  "div.errormsg \x7b",
  "   font-size: large;",
  "   text-align: center;",
  "   background-color: gold;",
  "   padding: 2px;",
  "   margin-top: 4px;",
  "\x7d",
  "span.plusdir \x7b",
  "    font-family: monospace;",
  "    font-weight: bold;",
  "    background-color: #D31D41;",
  "    color: white;",
  "    padding: 0px 3px;",
  "    cursor: default;",
  "\x7d",
  "span.plusgray \x7b",
  "    font-family: monospace;",
  "    font-weight: bold;",
  "    background-color: #d8d8d8;",
  "    color: white;",
  "    padding: 0px 3px;",
  "    cursor: default;",
  "\x7d",
  "span.pluscgi \x7b",
  "    font-family: monospace;",
  "    font-weight: bold;",
  "    background-color: #E3B81F;",
  "    color: white;",
  "    padding: 0px 3px;",
  "    cursor: default;",
  "\x7d",
  "span.plusfile \x7b",
  "    font-family: monospace;",
  "    font-weight: bold;",
  "    background-color: #bbdb1e;",
  "    color: white;",
  "    padding: 0px 3px;",
  "    cursor: default;",
  "\x7d",
  "tbody.folder > tr > td \x7b",
  "    border-color: #ded4f2;",
  "    border-width: 1px;",
  "    border-bottom-style: solid;",
  "\x7d",
  "table.fattr \x7b",
  "    border-collapse: collapse;",
  "\x7d",
  "table.fattr td \x7b",
  "    background: #e0f0f9;",
  "    padding: 3px 6px;",
  "\x7d",
  "table.fattr input[type='submit'] \x7b",
  "    width: 100%;",
  "\x7d",
  "table.fattr input[name='new_name'] \x7b",
  "    width: 20em;",
  "\x7d",
  "table.diracns td \x7b",
  "    padding: 2px 4px;",
  "\x7d",
  "table.diracns input \x7b",
  "    width: 100%;",
  "\x7d",
  "</style>"]

def responseLoginButton : Bytes := asciiLines [
  "<form style='display: inline' method=\"POST\" enctype=\"multipart/form-data\">",
  "<input type=\"submit\" name=\"do_login\" value=\"Login\"></input>",
  "</form>"]

def responseFooter : Bytes := asciiLines [
  "<hr style='margin: 16px 0px'>",
  "<form method='POST' enctype='multipart/form-data'>",
  "<table class='diracns'><tbody>",
  "<tr><td>new directory:</td>",
  "<td><input name='new_dir'/></td>",
  "<td><input type='submit' name='do_newdir' value='Create' " ++
    "onclick='return checkCreateDir(this)'/></td>",
  "</tr><tr><td>add file:</td>",
  "<td><input type='file' name='file'/></td>",
  "<td><input type='submit' name='do_add' value='Add' " ++
    "onclick='return checkAddFile(this)'/></td>",
  "</tr></tbody></table></form>"]

def filemgrGetLoginForm : Bytes := responseLoginButton

/-- `gFilePermDisp`. -/
def filePermDisp : List Bytes :=
  ["---", "r--", "-w-", "rw-", "--x", "r-x", "-wx", "rwx"].map ascii

/-- A row of `gFilePerm`: the name of a group of permissions and where its bits are. -/
structure FilePerm where
  name : Bytes
  /-- the weight of the group's execution bit -/
  unit : Nat
  deriving DecidableEq, Repr

def filePerm : List FilePerm :=
  [⟨ascii "user", 64⟩, ⟨ascii "group", 8⟩, ⟨ascii "others", 1⟩]

def FilePerm.mask (perm : FilePerm) : Nat := 7 * perm.unit

/-- The bits for each of the displayed permissions: read is 4, write 2, execution 1. -/
def FilePerm.values (perm : FilePerm) : List Nat := [0, 4, 2, 6, 1, 5, 3, 7].map (· * perm.unit)

def hasHiddenFiles (folder : Folder) : Bool := folder.any fun ent => ent.fileName.head? == some dot

/-- `dch_dirNameOf`. -/
def dchDirNameOf (fileName : DataChunk) : DataChunk :=
  let keepRoot (s : DataChunk) : DataChunk :=
    if dchTrimTrailing s slash = [] then s.take 1 else dchTrimTrailing s slash
  keepRoot ((keepRoot fileName).reverse.dropWhile (· != slash)).reverse

/-- `dch_endOfSpan` and `dch_endOfCSpan`. -/
def dchEndOfSpan (dch : DataChunk) (idxFrom : Nat) (c : Byte) : Nat :=
  idxFrom + ((dch.drop idxFrom).takeWhile (· == c)).length

def dchEndOfCSpan (dch : DataChunk) (idxFrom : Nat) (c : Byte) : Nat :=
  idxFrom + ((dch.drop idxFrom).takeWhile (· != c)).length

/-- Begin and end of each element of a path. -/
def pathElems (path : DataChunk) : Nat → Nat → List (Nat × Nat)
  | 0, _ => []
  | n + 1, pathElemBeg =>
    if pathElemBeg < path.length then
      let pathElemEnd := dchEndOfCSpan path pathElemBeg slash
      (pathElemBeg, pathElemEnd) :: pathElems path n (dchEndOfSpan path pathElemEnd slash)
    else []

def elemsOf (path : DataChunk) : List (Nat × Nat) :=
  pathElems path path.length (dchEndOfSpan path 0 slash)

def thinSpace : Bytes := ascii "&thinsp;"

/-- The loop that spreads the digits at the front of the buffer to its end. -/
def spreadDigits : Nat → Bytes → Nat → Nat → Except Fault Bytes
  | 0, _, _, _ => .error .outOfFuel
  | n + 1, buf, len, dest =>
    if len = 0 then .ok (buf.drop dest)
    else
      let cpy := if 3 < len then 3 else len
      if dest < thinSpace.length + cpy then .error (.indexOutOfRange .sizeDigits)
      else
        let buf := overwrite buf (dest - thinSpace.length) thinSpace
        let dest := dest - thinSpace.length - cpy
        let len := len - cpy
        spreadDigits n (overwrite buf dest ((buf.drop len).take cpy)) len dest

def sizeBuffer : Nat := 80

/-- The size in kilobytes, with a thin space behind every three digits. -/
def formatSize (size : Nat) : Except Fault Bytes := do
  let digits := decimal ((size + 1023) / 1024)
  let buf := digits ++ List.replicate (sizeBuffer - digits.length) nul
  let s ← spreadDigits (digits.length + 1) (buf.set (sizeBuffer - 1) nul) digits.length
    (sizeBuffer - 1)
  return cstr s

/-- Repeat an addition to the response for each element of a list. -/
def forEach {α : Type} (xs : List α) (add : RespBuf → α → Prog RespBuf) (resp : RespBuf) :
    Prog RespBuf := xs.foldlM add resp

/-- Text that only some responses have. -/
def addIf (cond : Bool) (resp : RespBuf) (text : Bytes) : Except Fault RespBuf :=
  if cond then respAppendStr resp text else .ok resp

/-- Title, host name and the path as links. -/
def folderPageTop (resp : RespBuf) (urlPath : DataChunk) (folder : Folder)
    (showLoginButton : Bool) (opErrorMsg : Option Bytes) : Prog RespBuf := do
  let resp ← respAppendFmt resp
    (ascii "<!DOCTYPE html><html><head><title>%C%R%H - File Manager</title>" ++
      ascii "%R</head>\n<body>\n")
    [.dch urlPath, .str (if urlPath ≠ [] then ascii " on " else []), .str responseHeader]
  let resp ← respAppendFmt resp
    (ascii "<table style='width: 100%'><tbody><tr>" ++
      ascii "<td style=\"font-size: large; font-weight: bold\"><a href=\"/\">%H</a>&emsp;") []
  let resp ← forEach (elemsOf urlPath) (fun resp (beg, fin) =>
    respAppendFmt resp (ascii "/<a href=\"%D/\">%D</a>")
      [.data (urlPath.take fin), .data ((urlPath.take fin).drop beg)]) resp
  let resp ← respAppendStr resp (ascii "</td><td style='text-align: right'>")
  let resp ← addIf (hasHiddenFiles folder) resp
    (ascii "<label><input type='checkbox' name='showall' " ++
      ascii "onclick='showHideHidden(this)'></input>show hidden files</label>")
  let resp ← (if showLoginButton then
      respAppendFmt resp (ascii "&emsp;%R") [.str responseLoginButton]
    else pure resp)
  let resp ← respAppendStr resp (ascii "</td></tr></tbody></table>\n")
  match opErrorMsg with
  | some mesg => respAppendFmt resp (ascii "<div class='errormsg'>%S</div>\n") [.str mesg]
  | none => return resp

/-- The link to the parent folder. -/
def parentRow (resp : RespBuf) (urlPath : DataChunk) (isModifiable : Bool) : Prog RespBuf :=
  if urlPath = [] then return resp
  else
    let dirName := dchDirNameOf urlPath
    respAppendFmt resp
      (ascii "<tr>\n<td><span class=\"plusgray\">%R</span></td>\n" ++
        ascii "<td><a style=\"white-space: pre\" href=\"%D/\"> .. </a></td>\n<td></td>\n</tr>\n")
      [.str (ascii (if isModifiable then "+" else "&sdot;")),
        .data (if dirName = [slash] then [] else dirName)]

/-- The row of an entry: a coloured square, the name as a link and the size. -/
def entryRow (resp : RespBuf) (urlPath : DataChunk) (ent : FolderEntry)
    (isModifiable isCGI : Bool) : Prog RespBuf := do
  let resp ← respAppendStr resp (ascii (if ent.fileName.head? = some dot
    then "<tr class='rhidden' style='display: none'>\n" else "<tr>\n"))
  let square := if ent.isDir then "plusdir" else if isCGI then "pluscgi" else "plusfile"
  let resp ← respAppendFmt resp (ascii (if isModifiable
      then "<td onclick=\"showOptions(this)\"><span class=\"%R\">+</span></td>\n"
      else "<td><span class=\"%R\">&sdot;</span></td>\n"))
    [.str (ascii square)]
  let resp ← respAppendFmt resp (ascii "<td><a href=\"%C/%S%R\">%S</a></td>\n")
    [.dch urlPath, .str ent.fileName, .str (ascii (if ent.isDir then "/" else "")),
      .str ent.fileName]
  let resp ← (if ent.isDir || isCGI then liftM (respAppendStr resp (ascii "<td></td>\n"))
    else do
      let size ← formatSize ent.size
      respAppendFmt resp (ascii "<td style=\"text-align: right; " ++
        ascii "padding-left: 2em; white-space: nowrap\">%RkB</td>\n") [.str size])
  respAppendStr resp (ascii "</tr>\n")

/-- The folders that an entry may be moved to: those above it, its own and those beside it. -/
def newDirOptions (resp : RespBuf) (urlPath : DataChunk) (folder : Folder) (idx : Nat) :
    Prog RespBuf := do
  let resp ← forEach (elemsOf urlPath) (fun resp (beg, _) =>
    respAppendFmt resp (ascii "<option>%D</option>\n") [.data (urlPath.take beg)]) resp
  let resp ← respAppendFmt resp (ascii "<option selected>%C/</option>\n") [.dch urlPath]
  forEach folder.zipIdx (fun resp (ent, i) =>
    if i ≠ idx ∧ ent.isDir then
      respAppendFmt resp (ascii "<option>%C/%S/</option>\n") [.dch urlPath, .str ent.fileName]
    else return resp) resp

def permSelect (resp : RespBuf) (mode : Nat) (perm : FilePerm) : Prog RespBuf := do
  let resp ← respAppendFmt resp (ascii "<td>%R: <select name='p%R'>\n")
    [.str perm.name, .str perm.name]
  let resp ← forEach (filePermDisp.zip perm.values) (fun resp (disp, value) =>
    respAppendFmt resp (ascii "<option%R>%R</option>\n")
      [.str (ascii (if mode &&& perm.mask = value then " selected" else "")), .str disp]) resp
  respAppendStr resp (ascii "</select></td>\n")

/-- The form with the operations on an entry. -/
def entryMenu (resp : RespBuf) (urlPath : DataChunk) (folder : Folder) (ent : FolderEntry)
    (idx : Nat) : Prog RespBuf := do
  let resp ← respAppendFmt resp
    (ascii "<tr style=\"display: none\">\n<td></td>\n<td colspan=\"2\">\n" ++
      ascii "<form method=\"POST\" enctype=\"multipart/form-data\">\n" ++
      ascii "<input type=\"hidden\" name=\"file\" value=\"%S\"/>\n<table class='fattr'><tbody>")
    [.str ent.fileName]
  let resp ← respAppendStr resp
    (ascii "<tr><td>new name:</td>\n<td colspan='3'><select name='new_dir'>\n")
  let resp ← newDirOptions resp urlPath folder idx
  let resp ← respAppendFmt resp
    (ascii "</select> <input name='new_name' value=\"%S\"/></td>" ++
      ascii "<td><input type=\"submit\" name=\"do_rename\" " ++
      ascii "value=\"Rename\" onclick='return checkRename(this)'/></td></tr>\n")
    [.str ent.fileName]
  let resp ← respAppendStr resp (ascii "<tr><td>permissions:</td>")
  let resp ← forEach filePerm (fun resp perm => permSelect resp ent.mode perm) resp
  let resp ← respAppendStr resp
    (ascii "<td><input type=\"submit\" name='do_perm' value='Change'/></td></tr>\n")
  let resp ← addIf (! ent.isDir) resp
    (ascii "<tr><td>replace with:</td>\n<td colspan='3'><input type='file' name='new_cont'>" ++
      ascii "</td><td><input type='submit' name='do_replace' " ++
      ascii "value='Upload' onclick='return confirmUpload(this)'/></td></tr>\n")
  let resp ← respAppendStr resp (ascii "<tr><td>delete:</td>\n<td colspan='3'>")
  let resp ← addIf ent.isDir resp
    (ascii "<label><input type='checkbox' name='del_recursive'/>recursively</label>")
  respAppendStr resp
    (ascii "</td>\n<td><input type=\"submit\" name=\"do_delete\" " ++
      ascii "value=\"Delete\" onclick=\"return confirmDel(this)\"/>" ++
      ascii "</td>\n</tr></tbody>\n</table>\n</form>\n</td>\n</tr>\n")

/-- `printFolderContents`. -/
def printFolderContents (cfg : Config) (urlPath : Bytes) (folder : Folder)
    (isModifiable showLoginButton : Bool) (opErrorMsg : Option Bytes) (onlyHead : Bool) :
    Prog RespBuf := do
  let resp ← respNew (respCmnStatus .ok200) onlyHead
  let resp ← respAppendHeader resp (ascii "Content-Type") (ascii "text/html; charset=utf-8")
  if onlyHead then return resp
  else
    let dchUrlPath := dchTrimTrailing urlPath slash
    let resp ← folderPageTop resp dchUrlPath folder showLoginButton opErrorMsg
    let resp ← respAppendStr resp (ascii "<table><tbody class='folder'>\n")
    let resp ← parentRow resp dchUrlPath isModifiable
    let entUrlPath ← mbNewWithStr urlPath
    let entUrlPath ← mbEnsureEndsWithSlash entUrlPath
    let resp ← forEach folder.zipIdx (fun resp (ent, idx) => do
      let path := mbSetStrEnd entUrlPath entUrlPath.dataLen ent.fileName
      let isCGI ← (if ent.isDir then pure false else configIsCGI cfg (cstr path.data))
      let resp ← entryRow resp dchUrlPath ent isModifiable isCGI
      if isModifiable then entryMenu resp dchUrlPath folder ent idx else return resp) resp
    respAppendFmt resp (ascii "</tbody></table>%R</body></html>\n")
      [.str (if isModifiable then responseFooter else [])]

end FilemanagerHttpd.Server
