import FloppyGuard.SiteIsolation.Copies
import FloppyGuard.SiteIsolation.LinkLoader
import FloppyGuard.SiteIsolation.ScriptText
import FloppyGuard.SiteIsolation.FailSafe
import FloppyGuard.Ingress.Rules
import FloppyGuard.Lib.Chain
import FloppyGuard.Ingress.Filter
import FloppyGuard.Ingress.Flow
import FloppyGuard.Ingress.DirectLinks
import FloppyGuard.Ingress.RuleForm
import FloppyGuard.Ingress.Sanitize
import FloppyGuard.Ingress.NeverEmpty
import FloppyGuard.DirectLink.Rules
import FloppyGuard.Ingress.Sessions
import FloppyGuard.Ingress.HitCounters
import FloppyGuard.Ingress.LineCap
import FloppyGuard.Agent.Enrolment
import FloppyGuard.Agent.TokenHistory
import FloppyGuard.Agent.Promises
import FloppyGuard.Lib.Table
import FloppyGuard.WireGuard.Metadata
import FloppyGuard.WireGuard.PeerUpdates
import FloppyGuard.Lib.Effect
import FloppyGuard.Nginx.Configure
import FloppyGuard.Lib.Cells
import FloppyGuard.Nginx.Bulk
import FloppyGuard.Lib.Statements
import FloppyGuard.Nginx.AdvancedConfig
import FloppyGuard.Agent.Reach
import FloppyGuard.DirectLink.Mesh
import FloppyGuard.DirectLink.Payload
import FloppyGuard.DirectLink.Ends
import FloppyGuard.WireGuard.HubConf
import FloppyGuard.Lib.Upkeep
import FloppyGuard.WireGuard.LiveNat
import FloppyGuard.WireGuard.ClientConfig
import FloppyGuard.WireGuard.PeerRewrite
import FloppyGuard.WireGuard.ConfSync
import FloppyGuard.WireGuard.KeyRotation
import FloppyGuard.WireGuard.RotatedOnce
import FloppyGuard.WireGuard.Revocation
import FloppyGuard.Agent.ConfigText
import FloppyGuard.DirectLink.KeyPinning
import FloppyGuard.Accounts.TokenExpiry
import FloppyGuard.Accounts.TwoFactor
import FloppyGuard.Hosts.Hostnames
import FloppyGuard.Hosts.LostUpdates
import FloppyGuard.WireGuard.MetadataPatch
import FloppyGuard.WireGuard.PlanPreview
import FloppyGuard.Agent.ApplyConfig
import FloppyGuard.Ingress.Validator
import FloppyGuard.Agent.Teardown
import FloppyGuard.Accounts.SignIn
import FloppyGuard.Lib.Mirror
import FloppyGuard.Nginx.Accepted
import FloppyGuard.Hosts.LiveConf
import FloppyGuard.Hosts.AccessListUpdates
import FloppyGuard.Hosts.Converge
import FloppyGuard.Agent.RenameCascade
import FloppyGuard.WireGuard.ConfPeers
import FloppyGuard.WireGuard.PeerRemoval
import FloppyGuard.WireGuard.PeerLabels
import FloppyGuard.WireGuard.PeerSwap
import FloppyGuard.Lib.FirstBy
import FloppyGuard.WireGuard.HubHooks
import FloppyGuard.WireGuard.HookCmds
import FloppyGuard.SiteIsolation.Networks
import FloppyGuard.SiteIsolation.Injection
import FloppyGuard.SiteIsolation.RouteWarnings
import FloppyGuard.Ingress.Bulk
import FloppyGuard.Ingress.Pickers
import FloppyGuard.Ingress.Prune
import FloppyGuard.WireGuard.Restore
import FloppyGuard.WireGuard.TunnelAddress
import FloppyGuard.WireGuard.Allocation
import FloppyGuard.WireGuard.Freshness
import FloppyGuard.SiteIsolation.Nft
import FloppyGuard.SiteIsolation.ForeignDrops
import FloppyGuard.Lib.Lines
import FloppyGuard.Agent.NormalConfig
import FloppyGuard.Agent.StoredHook
import FloppyGuard.Agent.DefaultRoute
import FloppyGuard.DirectLink.Clashes
import FloppyGuard.WireGuard.Traffic
import FloppyGuard.Agent.DirectPath
import FloppyGuard.Lib.Spans
import FloppyGuard.Lib.DyadicBlocks
import FloppyGuard.GeoFilter.Address
import FloppyGuard.GeoFilter.Countries
import FloppyGuard.GeoFilter.Conf
import FloppyGuard.GeoFilter.Refresh
import FloppyGuard.Lib.Throughout
import FloppyGuard.Agent.HiddenKeys
import FloppyGuard.Lib.Bisect
import FloppyGuard.GeoFilter.Lookup
import FloppyGuard.Lib.Counts
import FloppyGuard.GeoFilter.Days
import FloppyGuard.Lib.Tail
import FloppyGuard.GeoFilter.Collect
import FloppyGuard.Lib.Serial
import FloppyGuard.Accounts.EmailLock
import FloppyGuard.Agent.LinkBinding
import FloppyGuard.Lib.Word32
import FloppyGuard.CidrNumbers
import FloppyGuard.WireGuard.AddressLines
import FloppyGuard.Agent.SubnetReaders
import FloppyGuard.WireGuard.WrittenStore
import FloppyGuard.WireGuard.ClientFile
import FloppyGuard.WireGuard.CreatedConfig
import FloppyGuard.Ingress.ClientReach
import FloppyGuard.WireGuard.FailedRemoval
import FloppyGuard.Lib.UseCount
import FloppyGuard.Certificates.DnsCredentials
import FloppyGuard.Certificates.RenewalAlerts
import FloppyGuard.Certificates.RenewalBackup
import FloppyGuard.Lib.Words
import FloppyGuard.Accounts.RateLimit
import FloppyGuard.Accounts.Access
import FloppyGuard.Accounts.SsoFlow
import FloppyGuard.Hosts.CloudflareRecords
import FloppyGuard.WireGuard.HubFrame
import FloppyGuard.Agent.TokenHandover
import FloppyGuard.Lib.Closed
import FloppyGuard.Nginx.Locations
import FloppyGuard.Lib.EnvFile
import FloppyGuard.Agent.ConfigEnv
import FloppyGuard.Certificates.RenewalTimer
import FloppyGuard.Agent.SyncRoutes
import FloppyGuard.Agent.IngressGuard
import FloppyGuard.Agent.IfaceRules
