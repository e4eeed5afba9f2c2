import Kerneloid.Lib.Slots
import Kerneloid.Vfs.Ops

/-! # The pages of the browser

`browser_navigate`, `browser_back` and `browser_forward` of `browser.c`. Copies into the buffers for
URLs are checked for their size and, for the history, the slot.

`browser_back` and `browser_forward` pass a pointer into the history, and `browser_navigate` changes
the history before it reads the last time through that pointer. So `Url` says where a URL is, and it
is read where the code reads it. A URL has room for 512 bytes, a page for 4096, and the history has
16 entries.

The headers and the height of the viewport are left out: nothing here uses them. -/

namespace Kerneloid.Browser.Pages

open Lib.Arrays Lib.Slots UnnamedFS.Types Vfs.Types Vfs.Ops

/-! ### The code -/

inductive ContentType
  | html
  | text
  | unknown
  deriving DecidableEq

/-- `struct browser_state`. The first `content_length` bytes of the page are `pageContent`. -/
structure State where
  currentUrl : CStr
  pageContent : List UInt8
  contentType : ContentType
  statusCode : ℤ
  scrollOffset : ℤ
  history : ℕ → CStr
  historyIndex : ℤ
  historyCount : ℤ
  statusMessage : CStr

/-- The browser, and the file system it loads pages from. -/
structure Session where
  browser : State
  vfs : VState

def browserInit (b : State) : State :=
  { b with
    currentUrl := []
    pageContent := []
    contentType := .unknown
    statusCode := 0
    scrollOffset := 0
    historyIndex := -1
    historyCount := 0
    statusMessage := [] }

def browserLoadFile (b : State) (content : CStr) : State :=
  { b with
    pageContent := content.take 4095
    scrollOffset := 0
    contentType := .text }

/-- What the parameter `url` points to. -/
inductive Url
  | text (url : CStr)
  | slot (i : ℤ)
  deriving DecidableEq

def Url.read (history : ℕ → CStr) : Url → Option CStr
  | .text url => some url
  | .slot i => readAt 16 history i

/-- `strcpy(state->current_url, url)`. -/
def State.setUrl (b : State) (url : CStr) : Option State :=
  if url.length < 512 then some { b with currentUrl := url } else none

/-- The texts of `about:help` and `about:version`. -/
def helpText : CStr := cstr <|
  "TINX TUI Web Browser Help\n" ++
  "========================\n\n" ++
  "Commands:\n" ++
  "  open <url>   - Navigate to URL\n" ++
  "  back         - Go back in history\n" ++
  "  forward      - Go forward in history\n" ++
  "  reload       - Reload current page\n" ++
  "  home         - Go to home page\n" ++
  "  quit         - Exit browser\n\n" ++
  "Navigation:\n" ++
  "  UP/P         - Scroll up\n" ++
  "  DOWN/N       - Scroll down\n" ++
  "  G            - Go to URL\n" ++
  "  B            - Back\n" ++
  "  F            - Forward\n" ++
  "  Q            - Quit\n\n" ++
  "Supported URLs:\n" ++
  "  file://path  - Local files\n" ++
  "  about:xxx    - Built-in pages"

@[inherit_doc helpText]
def versionText : CStr := cstr <|
  "TINX TUI Web Browser\n" ++
  "Version 1.0\n\n" ++
  "Features:\n" ++
  "  - Text-based rendering\n" ++
  "  - Local file support\n" ++
  "  - History navigation\n" ++
  "  - Simple HTML parsing\n\n" ++
  "Built for Tinx Kernel"

/-- The test for the scheme `file://`. -/
def IsFile (url : CStr) : Prop := 7 ≤ url.length ∧ url.take 7 = cstr "file://"

instance (url : CStr) : Decidable (IsFile url) := inferInstanceAs (Decidable (_ ∧ _))

theorem IsFile.not_about {url : CStr} (h : IsFile url) :
    url ≠ cstr "about:blank" ∧ url ≠ cstr "about:help" ∧ url ≠ cstr "about:version" := by
  refine ⟨?_, ?_, ?_⟩
  all_goals
    rintro rfl
    exact absurd h (by decide)

/-- The path of a `file://` URL. -/
def filePath (url : CStr) : CStr := if url.drop 7 = [] then cstr "/" else url.drop 7

/-- The calls of the file system that load a page. -/
def loadPage (v : VState) (path : CStr) : VState × Option (List UInt8) :=
  match vfsOpen v path 1 with
  | (v, fd) =>
    if 0 ≤ fd then
      match vfsRead v fd 4095 with
      | (v, n, bytes) =>
        ((vfsClose v fd).1,
          if 0 ≤ n then some (bytes.take (min n 4095).toNat) else none)
    else (v, none)

/-- The part of `browser_navigate` that adds the URL to the history. -/
def addToHistory (b : State) (url : Url) : Option State := do
  if b.historyCount < 16 then
    let b := { b with
      history := ← copyTo 16 512 b.history b.historyCount (← url.read b.history)
      historyCount := b.historyCount + 1 }
    return { b with historyIndex := b.historyCount - 1 }
  else
    let b := { b with history := ← shiftDown 16 512 b.history }
    -- `url` is read here, after the entries have moved
    return { b with
      history := ← copyTo 16 512 b.history 15 (← url.read b.history)
      historyIndex := 15 }

def browserNavigate (s : Session) (url : Url) : Option (Session × ℤ) := do
  let u ← url.read s.browser.history
  -- every branch starts with this copy
  let b ← s.browser.setUrl u
  if u = cstr "about:blank" then
    let b := { b with pageContent := [], statusCode := 200, statusMessage := cstr "Blank page" }
    return (⟨b, s.vfs⟩, 0)
  else if u = cstr "about:help" then
    let b := browserLoadFile b helpText
    return (⟨{ b with statusCode := 200, statusMessage := cstr "Help page" }, s.vfs⟩, 0)
  else if u = cstr "about:version" then
    let b := browserLoadFile b versionText
    return (⟨{ b with statusCode := 200, statusMessage := cstr "Version info" }, s.vfs⟩, 0)
  else if IsFile u then
    match loadPage s.vfs (filePath u) with
    | (v, some bytes) =>
      let b := { b with
        pageContent := bytes, statusCode := 200, scrollOffset := 0, statusMessage := cstr "Loaded" }
      return (⟨← addToHistory b url, v⟩, 0)
    | (v, none) =>
      let b := { b with
        statusCode := 404, statusMessage := cstr "File not found", pageContent := [] }
      return (⟨b, v⟩, -1)
  else
    let b := { b with statusCode := 400, statusMessage := cstr "Unsupported URL scheme" }
    return (⟨b, s.vfs⟩, -1)

def browserBack (s : Session) : Option (Session × ℤ) := do
  if 0 < s.browser.historyIndex then
    let b := { s.browser with historyIndex := s.browser.historyIndex - 1 }
    let (s, _) ← browserNavigate ⟨b, s.vfs⟩ (.slot b.historyIndex)
    return (s, 0)
  else return (s, -1)

def browserForward (s : Session) : Option (Session × ℤ) := do
  if s.browser.historyIndex < s.browser.historyCount - 1 then
    let b := { s.browser with historyIndex := s.browser.historyIndex + 1 }
    let (s, _) ← browserNavigate ⟨b, s.vfs⟩ (.slot b.historyIndex)
    return (s, 0)
  else return (s, -1)

/-! ### Loading -/

/-- The page of the URL can be loaded. -/
def Loads (v : VState) (url : CStr) : Prop := (loadPage v (filePath url)).2.isSome = true

instance (v : VState) (url : CStr) : Decidable (Loads v url) := inferInstanceAs (Decidable (_ = _))

end Kerneloid.Browser.Pages
