import OsuTracker.Model.Api.Bancho

/-! # Updates

The tag of the latest release and the version compiled in are compared as numbers: the digits of
all components one after the other, without one leading zero. A newer release is downloaded by the
first asset with the name of the platform. `fetchZip` answers a download, none for a status other
than 200; `writable` tells whether `update.zip` can be opened.
-/

namespace OsuTracker.Model.Api.Update

open Cxx Core.Helpers

/-- `signedVer`. -/
def signedVer (tag : Str) : Str :=
  let signed := replace (replace tag "v" []) "." []
  if signed.head? = some ('0' : UInt8) then signed.drop 1 else signed

section Download

variable (platform : Str) (fetchZip : Str → Option (List UInt8)) (writable : Bool)

def target : Str := ("x86-release-" : Str) ++ platform ++ (".zip" : Str)

/-- The loop over the assets. -/
def downloadFrom : List Json → Except Exception (Option (List UInt8))
  | [] => .ok none
  | asset :: rest => do
    let name ← (asset.indexConst "name").bind Json.getString
    if name ≠ target platform then downloadFrom rest
    else
      let url ← (asset.indexConst "browser_download_url").bind Json.getString
      match fetchZip url with
      | some zip => pure (if writable then some zip else none)
      | none => pure none

/-- What `download` leaves in `update.zip`, if it returns true. -/
def download (releaseJson : Json) : Except Exception (Option (List UInt8)) := do
  downloadFrom platform fetchZip writable (← releaseJson.indexConst "assets").items

end Download

/-- The release that `update` goes on to download. -/
def newRelease (versionSigned : Str) (updateEqual : Bool) (r : Http) : Except Exception (Option Json) :=
  if r.status ≠ 200 then .ok none
  else do
    let request ← r.parse
    let tag ← (request.index "tag_name").bind Json.getString
    let signedVersion ← stoi (signedVer tag)
    let own ← stoi versionSigned
    pure (if (updateEqual ∧ signedVersion = own) ∨ own < signedVersion then some request else none)

/-- `update`, which catches every exception. -/
def update (versionSigned : Str) (updateEqual : Bool) (platform : Str) (fetchZip : Str → Option (List UInt8))
    (writable : Bool) (r : Http) : Except Exception (Option (List UInt8)) :=
  let tried := (newRelease versionSigned updateEqual r).bind fun release =>
    match release with
    | some request => download platform fetchZip writable request
    | none => .ok none
  match tried with
  | .ok zip => .ok zip
  | .error e => if e.isCaught then .ok none else .error e

end OsuTracker.Model.Api.Update
