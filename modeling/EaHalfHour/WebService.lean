import EaHalfHour.LexicalPath
import EaHalfHour.KvMessage

/-! The files WebServie::process serves, and the dispatch in front of it that the
CacheService of a006, a008 and a009 shares. -/
namespace EaHalfHour.WebService
open KvMessage LexicalPath

inductive HttpMethod where
  | get | post | other
deriving DecidableEq

structure RestfulRequest where
  unresolvedPath : Bytes
  method : HttpMethod := .get
  getQuery : Bytes → Option Bytes := fun _ => none
  body : Bytes := []

structure RestfulResponse where
  statusCode : Nat := 200
  headers : List (Bytes × Bytes) := []
  body : Bytes := []
deriving DecidableEq

def RestfulResponse.setHeader (r : RestfulResponse) (name value : Bytes) : RestfulResponse :=
  { r with headers := (name,value) :: r.headers.filter fun h => decide (h.1 ≠ name) }

/-- What is asked of alkaid: `exists`, `localfs` (is there one), and `read_file`, which
fails or gives the content. A path is a string of bytes; which file it names, and what a
NUL byte in it does, is up to the file system. -/
structure FileSystem where
  isThere : Bytes → Bool
  localfs : Bool
  readFile : Bytes → Option Bytes

/-- turbo::strip_prefix. -/
def stripPrefix (s pre : Bytes) : Bytes := if pre <+: s then s.drop pre.length else s

theorem stripPrefix_eq_iff (s pre rest : Bytes) :
    stripPrefix s pre = rest ↔ s = pre ++ rest ∨ ¬ pre <+: s ∧ s = rest := by
  unfold stripPrefix
  split
  · rename_i hpre
    obtain ⟨tail,rfl⟩ := hpre
    simp
  · rename_i hpre
    have hne : s ≠ pre ++ rest := fun he => hpre (he ▸ List.prefix_append pre rest)
    simp [hne, hpre]

structure WebServie where
  root : Bytes
deriving DecidableEq

def WebServie.requested (unresolvedPath : Bytes) : Bytes :=
  let unresolvedPath := if 3 ≤ unresolvedPath.length then stripPrefix unresolvedPath (text "ui/")
    else []
  if unresolvedPath = [] then text "index.html" else unresolvedPath

def WebServie.path (self : WebServie) (unresolvedPath : Bytes) : Bytes :=
  join self.root (WebServie.requested unresolvedPath)

def contentType (path : Bytes) : Bytes :=
  if extension path = text ".css" then text "text/css; charset=utf-8"
  else if extension path = text ".js" then text "application/javascript; charset=utf-8"
  else if extension path = text ".png" then text "image/png"
  else if extension path = text ".jpg" then text "image/jpeg"
  else if extension path = text ".gif" then text "image/gif"
  else if extension path = text ".ico" then text "image/x-icon"
  else text "text/html; charset=utf-8"

def RestfulResponse.answer (r : RestfulResponse) (statusCode : Nat) (contentType body : Bytes) :
    RestfulResponse :=
  { ({ r with statusCode }.setHeader (text "Content-Type") contentType).setHeader (text "Vary")
      (text "Accept-Encoding") with body }

def WebServie.process (self : WebServie) (fs : FileSystem) (request : RestfulRequest)
    (response : RestfulResponse) : RestfulResponse :=
  let path := self.path request.unresolvedPath
  let html := text "text/html; charset=utf-8"
  if fs.isThere path = false then response.answer 404 html (text "404 not found")
  else if fs.localfs = false then response.answer 500 html (text "500 internal error")
  else
    match fs.readFile path with
    | none => response.answer 500 html (text "500 internal error")
    | some content => response.answer 200 (contentType path) content

def indexPage : Bytes := text "
<!DOCTYPE html>
<html lang=\"en\">
<head>
    <meta charset=\"UTF-8\">
    <title>Cache Service</title>
</head>
<body>
    <br> <a href=\"/ea/cache\">cache</a> </br>
    <br> <a href=\"/ea/ui\">ui</a> </br>
</body>
</html>
            "

section Dispatch
variable {m : Type → Type} [Monad m]

/-- CacheService::process. The projects differ in what GET and POST of "cache" do and
in the text that refuses other methods. -/
def CacheService.process (onGet onPost : RestfulRequest → RestfulResponse → m RestfulResponse)
    (unsupported : Bytes) (web : WebServie) (fs : FileSystem) (request : RestfulRequest)
    (response : RestfulResponse) : m RestfulResponse :=
  let path := request.unresolvedPath
  let response := response.setHeader (text "Access-Control-Allow-Origin") (text "*")
  if path = [] then
    pure { { response with statusCode := 200 }.setHeader (text "Content-Type") (text "text/html")
      with body := indexPage }
  else if text "ui" <+: path then pure (web.process fs request response)
  else if path ≠ text "cache" then
    pure { response with statusCode := 404, body := text "not found" }
  else
    let response := response.setHeader (text "Content-Type") (text "application/json")
    match request.method with
    | .get => onGet request response
    | .post => onPost request response
    | .other => pure { response with statusCode := 403, body := unsupported }

end Dispatch

def jsonResponse : RestfulResponse :=
  (({} : RestfulResponse).setHeader (text "Access-Control-Allow-Origin") (text "*")).setHeader
    (text "Content-Type") (text "application/json")

theorem WebServie.process_ok {self : WebServie} {fs : FileSystem} {request : RestfulRequest}
    {response : RestfulResponse} (h : (self.process fs request response).statusCode = 200) :
    fs.readFile (self.path request.unresolvedPath) =
      some (self.process fs request response).body := by
  unfold WebServie.process at h ⊢
  dsimp only at h ⊢
  split at h
  · cases h
  · split at h
    · cases h
    · rename_i hthere hlocal
      rw [if_neg hthere, if_neg hlocal]
      cases hread : fs.readFile (self.path request.unresolvedPath) with
      | none =>
        rw [hread] at h
        cases h
      | some content => rfl

section Root
variable {m : Type → Type} [Monad m] {request : RestfulRequest}

theorem process_ui (onGet onPost : RestfulRequest → RestfulResponse → m RestfulResponse)
    (unsupported : Bytes) (web : WebServie) (fs : FileSystem) (response : RestfulResponse)
    (h : text "ui" <+: request.unresolvedPath) :
    CacheService.process onGet onPost unsupported web fs request response = pure (web.process fs
      request (response.setHeader (text "Access-Control-Allow-Origin") (text "*"))) := by
  have hne : request.unresolvedPath ≠ [] := by
    intro he
    rw [he] at h
    exact absurd h (by decide)
  simp only [CacheService.process, hne, h, if_false, if_true]

theorem process_cache (onGet onPost : RestfulRequest → RestfulResponse → m RestfulResponse)
    (unsupported : Bytes) (web : WebServie) (fs : FileSystem)
    (h : request.unresolvedPath = text "cache") :
    CacheService.process onGet onPost unsupported web fs request {} = match request.method with
      | .get => onGet request jsonResponse
      | .post => onPost request jsonResponse
      | .other => pure { jsonResponse with statusCode := 403, body := unsupported } := by
  have hui : ¬ text "ui" <+: text "cache" := by decide
  have hne : text "cache" ≠ [] := by decide
  simp only [CacheService.process, h, hui, hne, if_false, ne_eq, not_true_eq_false]
  rfl

/-- What WebServie::process looks up is below the root, and so is every file whose
content leaves with status 200. -/
structure ServesBelowRoot (root unresolvedPath : Bytes) : Prop where
  path : Below (lexicallyNormal root) (lexicallyNormal (WebServie.path ⟨root⟩ unresolvedPath))
  served : ∀ (m : Type → Type) [Monad m] onGet onPost unsupported (fs : FileSystem)
    (request : RestfulRequest) (response : RestfulResponse),
    request.unresolvedPath = unresolvedPath → ∃ r : RestfulResponse,
      CacheService.process (m := m) onGet onPost unsupported ⟨root⟩ fs request response = pure r ∧
      (r.statusCode = 200 → ∃ file, fs.readFile file = some r.body ∧
        Below (lexicallyNormal root) (lexicallyNormal file))

/-- An absolute path takes the root's place, so the root must be absolute too and its
names must lead the path's own. A relative one must not climb out of the root, or come
back through the names of the root it climbed over. -/
def Stays (root requested : Bytes) : Prop :=
  let dir := lexicallyNormal root
  let r := relative (segs requested)
  if isAbsolute requested then dir.base = .root ∧ dir.names <+: r.names
  else
    (dir.base = .root ∨ r.ups ≤ dir.names.length) ∧
      dir.names.drop (dir.names.length - r.ups) <+: r.names

instance (root requested : Bytes) : Decidable (Stays root requested) :=
  inferInstanceAs (Decidable (if isAbsolute requested then _ ∧ _ else _ ∧ _))

theorem stays_of_no_up (root : Bytes) {requested : Bytes} (habs : isAbsolute requested = false)
    (hup : Seg.up ∉ segs requested) : Stays root requested := by
  have hups := relative_ups_eq_zero hup
  simp [Stays, habs, hups]

theorem below_path_iff (root unresolvedPath : Bytes) :
    Below (lexicallyNormal root) (lexicallyNormal (WebServie.path ⟨root⟩ unresolvedPath)) ↔
      Stays root (WebServie.requested unresolvedPath) := by
  unfold WebServie.path Stays
  cases habs : isAbsolute (WebServie.requested unresolvedPath) with
  | true =>
    rw [join, if_pos habs, lexicallyNormal_absolute habs]
    rfl
  | false =>
    rw [lexicallyNormal_join habs, below_append_iff]
    simp

theorem servesBelowRoot_iff (root : Bytes) {unresolvedPath : Bytes}
    (hui : text "ui" <+: unresolvedPath) :
    ServesBelowRoot root unresolvedPath ↔ Stays root (WebServie.requested unresolvedPath) := by
  rw [← below_path_iff]
  constructor
  · exact fun h => h.path
  · intro hbelow
    refine ⟨hbelow,?_⟩
    rintro m _ onGet onPost unsupported fs request response rfl
    refine ⟨_,process_ui onGet onPost unsupported ⟨root⟩ fs response hui,fun hok => ?_⟩
    exact ⟨_,WebServie.process_ok hok,hbelow⟩

theorem servesBelowRoot_script : ServesBelowRoot (text "www") (text "ui/js/app.js") :=
  (servesBelowRoot_iff (text "www") (by decide)).mpr
    (by decide)

/-- The private key, which lies beside the root in the directory the server is started
from, is served to anyone. -/
theorem not_servesBelowRoot_key : ¬ ServesBelowRoot (text "www") (text "ui/../key.pem") := by
  intro h
  exact absurd h.path (by decide)

end Root

end EaHalfHour.WebService
