import FirebaseLogin.Library.Execution
import FirebaseLogin.Library.DocumentStore
import FirebaseLogin.Library.KeyedMap
import FirebaseLogin.Library.SortedEntries
import FirebaseLogin.Library.OrderedTree
import FirebaseLogin.Library.Binary64
import FirebaseLogin.Firestore.Reference
import FirebaseLogin.Firestore.Document
import FirebaseLogin.Core.MapChanges
import FirebaseLogin.Core.ObjectValue
import FirebaseLogin.Core.SetAll
import FirebaseLogin.Core.Mutation
import FirebaseLogin.Core.Overlay
import FirebaseLogin.Core.MutationQueue
import FirebaseLogin.Core.LocalStore
import FirebaseLogin.Core.PlainWrites
import FirebaseLogin.Core.Recalculation
import FirebaseLogin.Core.LocalConsistency
import FirebaseLogin.Core.LocalSteps
import FirebaseLogin.Core.LocalRuns
import FirebaseLogin.Core.ReportedChanges
import FirebaseLogin.Core.Acknowledgement
import FirebaseLogin.Core.Refinement
import FirebaseLogin.Core.ValueOrder
import FirebaseLogin.Core.Query
import FirebaseLogin.Core.DocumentSet
import FirebaseLogin.Core.ViewChanges
import FirebaseLogin.Core.ViewDiff
import FirebaseLogin.Core.View
import FirebaseLogin.Core.ViewSnapshots
import FirebaseLogin.Core.ViewRuns
import FirebaseLogin.Core.StoreViews
import FirebaseLogin.Auth.Session
import FirebaseLogin.Auth.KnownUsers
import FirebaseLogin.Auth.SignedInFlag
import FirebaseLogin.Views.DeviceSelection
import FirebaseLogin.Views.DeviceHistory
import FirebaseLogin.Views.DeviceAttribution
import FirebaseLogin.Views.DeviceRefresh
import FirebaseLogin.Client.State
import FirebaseLogin.Client.Handlers
import FirebaseLogin.Client.Issued
import FirebaseLogin.Client.Effects
import FirebaseLogin.System
import FirebaseLogin.Account.WriteScope
import FirebaseLogin.Profile.Writers
import FirebaseLogin.Profile.FailedRead
import FirebaseLogin.Profile.LostUpdate
import FirebaseLogin.Profile.UneditedName
import FirebaseLogin.Profile.Completeness
import FirebaseLogin.Profile.Identity
import FirebaseLogin.Devices.OneRecord
import FirebaseLogin.Managers.DeviceLocations
import FirebaseLogin.Views.MapMarkers
import FirebaseLogin.Views.MarkerOwners
import FirebaseLogin.Views.RouteMap
import FirebaseLogin.Managers.LocationTrack
import FirebaseLogin.Managers.SharedAccount
import FirebaseLogin.Devices.StoredList
import FirebaseLogin.Devices.Registration
import FirebaseLogin.Devices.Deletion
