import OsuTracker.Cxx.Outcome
import OsuTracker.Cxx.Text
import OsuTracker.Cxx.Floating
import OsuTracker.Cxx.Json
import OsuTracker.Model.Core.Config
import OsuTracker.Model.Core.StatTable
import OsuTracker.Model.Core.ConfigFile
import OsuTracker.Cxx.Sort
import OsuTracker.Model.Core.Formatter
import OsuTracker.Model.Core.Helpers
import OsuTracker.Model.Core.Stats
import OsuTracker.Model.Web.OverlayDataWs
import OsuTracker.Soundness.ConfigRoundTrip
import OsuTracker.Soundness.ExporterAgreement
import OsuTracker.Model.Web.MainWs
import OsuTracker.Soundness.SaveSettings
import OsuTracker.Soundness.ConfigValidity
import OsuTracker.Cxx.FloatText
import OsuTracker.Machine.Threads
import OsuTracker.Model.Api.Helpers
import OsuTracker.Model.Api.Bancho
import OsuTracker.Model.Api.Titanic
import OsuTracker.Model.Api.Simulate
import OsuTracker.Model.Api.Fetch
import OsuTracker.Model.Core.Session
import OsuTracker.Soundness.Endpoints.Acts
import OsuTracker.Soundness.Endpoints.Plans
import OsuTracker.Soundness.Levels
import OsuTracker.Soundness.Endpoints.Scripts
import OsuTracker.Soundness.Endpoints.TitanicScript
import OsuTracker.Soundness.Endpoints.Differences
import OsuTracker.Soundness.Endpoints.Calls
import OsuTracker.Soundness.Endpoints.Cycles
import OsuTracker.Soundness.Endpoints.Bancho
import OsuTracker.Soundness.Endpoints.TitanicCycles
import OsuTracker.Soundness.Endpoints.Schedules
import OsuTracker.Soundness.BaselineCapture
import OsuTracker.Soundness.BaselineStability
import OsuTracker.Model.Main
import OsuTracker.Soundness.CleanStart
import OsuTracker.Soundness.Printing
import OsuTracker.Soundness.Endpoints.Errors
import OsuTracker.Soundness.FetchSafety
import OsuTracker.Machine.Regions
import OsuTracker.Model.Core.FetchThread
import OsuTracker.Soundness.ThreadLifecycle
import OsuTracker.Soundness.SwitchKept
import OsuTracker.Soundness.LevelSearch
import OsuTracker.Model.Api.Update
import OsuTracker.Soundness.UpdateOrder
import OsuTracker.Soundness.SessionReset
import OsuTracker.Soundness.FailedCalls
import OsuTracker.Soundness.EntryDifferences
import OsuTracker.Machine.NamedEntries
import OsuTracker.Soundness.ConfigEntries
import OsuTracker.Soundness.Formatting
import OsuTracker.Soundness.ChangeSigns
import OsuTracker.Soundness.InvalidTexts
import OsuTracker.Model.Web.DataMutex
import OsuTracker.Soundness.MetaTags
import OsuTracker.Soundness.MutexEvents
import OsuTracker.Soundness.Snapshots
import OsuTracker.Soundness.ConcurrentCycles
import OsuTracker.Soundness.NumberFormat
import OsuTracker.Soundness.DisplayOrder
import OsuTracker.Soundness.FirstRun
import OsuTracker.Model.Web.Settings
import OsuTracker.Model.Web.WebState
import OsuTracker.Soundness.WindowThread
import OsuTracker.Soundness.SettingsTexts
import OsuTracker.Soundness.Shutdown
import OsuTracker.Soundness.WindowRequests
import OsuTracker.Model.Web.SettingsPage
import OsuTracker.Model.View.StatsList
import OsuTracker.Soundness.Arrangement
import OsuTracker.Machine.Patterns
import OsuTracker.Model.Web.TemplateRegister
import OsuTracker.Soundness.Resave
import OsuTracker.Model.Core.EnvFile
import OsuTracker.Soundness.HashDispatch
import OsuTracker.Model.Updater
import OsuTracker.Soundness.Extraction
import OsuTracker.Soundness.AvatarUrl
import OsuTracker.Model.View.AvatarUpload
import OsuTracker.Soundness.AvatarUploads
import OsuTracker.Machine.Substitution
import OsuTracker.Soundness.Replacing
import OsuTracker.Soundness.TemplateRoutes
import OsuTracker.Soundness.Templates
import OsuTracker.Model.View.SwitchIndicator
import OsuTracker.Soundness.PendingSwitch
import OsuTracker.Machine.Loops
import OsuTracker.Machine.Pieces
import OsuTracker.Machine.Segments
import OsuTracker.Soundness.ProtectedNames
import OsuTracker.Cxx.Utf8
import OsuTracker.Cxx.JsonDump
import OsuTracker.Cxx.JsonLexer
import OsuTracker.Cxx.JsonParser
import OsuTracker.Cxx.JsonText
import OsuTracker.Model.Core.ConfigText
import OsuTracker.Soundness.ConfigText
import OsuTracker.Machine.Brackets
import OsuTracker.Model.Web.Mustache
import OsuTracker.Soundness.Mustache.Compile
import OsuTracker.Soundness.Mustache.Render
import OsuTracker.Soundness.Mustache.Values
import OsuTracker.Model.Web.Filenames
import OsuTracker.Soundness.Filenames
