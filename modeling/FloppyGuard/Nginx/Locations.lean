import FloppyGuard.Lib.Closed
import FloppyGuard.Lib.Words
import FloppyGuard.Nginx.AdvancedConfig

/-! The custom locations of a proxy host (`renderLocations` in `nginx.js` and `_location.conf`), as
nginx reads them. The parts of the template behind `proxy_pass` depend on the switches of the host
only and are a parameter. -/
namespace FloppyGuard.Nginx

open Text Statements

/-! The gates. -/

inductive Scheme
  | http
  | https
deriving DecidableEq

def Scheme.text : Scheme → List Char
  | http => "http".toList
  | https => "https".toList

structure Location where
  path : List Char
  forwardScheme : Scheme
  forwardHost : List Char
  forwardPort : ℕ
  forwardPath : List Char
  advancedConfig : List Char

namespace Location

variable (loc : Location)

/-- A `forward_host` with a slash is cut there. -/
def split : Location :=
  if '/' ∈ loc.forwardHost then
    { loc with
      forwardHost := (loc.forwardHost.splitOn '/').headD []
      forwardPath := '/' :: ['/'].intercalate (loc.forwardHost.splitOn '/').tail }
  else loc

/-- The argument of `proxy_pass`. -/
def target : List Char :=
  loc.forwardScheme.text ++ "://".toList ++ loc.forwardHost ++ ':' ::
    Nat.toDigits 10 loc.forwardPort ++ loc.forwardPath

def headLine : List Char := "  location ".toList ++ loc.path ++ " \x7b\n    ".toList

def proxyPassLine : List Char := "    proxy_pass       ".toList ++ loc.target ++ ";".toList

end Location

def headerLines : List Char :=
  ("\n\n    proxy_set_header Host $host;\n    proxy_set_header X-Forwarded-Scheme $scheme;\n" ++
    "    proxy_set_header X-Forwarded-Proto  $scheme;\n    proxy_set_header X-Forwarded-For    " ++
    "$remote_addr;\n" ++
    "    proxy_set_header X-Real-IP\t\t$remote_addr;\n\n").toList

/-- `_location.conf`; `rest` is what follows `proxy_pass`. -/
def Location.text (loc : Location) (rest : List Char) : List Char :=
  loc.headLine ++ loc.advancedConfig ++ headerLines ++ loc.proxyPassLine ++ rest

variable {loc : Location} {locations : List Location} {rest text path w : List Char}
  {adv more ss : List Statement} {c : Char}

end FloppyGuard.Nginx
